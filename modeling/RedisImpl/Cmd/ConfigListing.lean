import RedisImpl.Cmd.ConfigGet

/-!
# What CONFIG GET lists

For every dictionary that a `SimpleMap` can be: `listsMatches_iff`.
-/

namespace RedisImpl

namespace SimpleMap

variable {κ ν ι : Type} [DecidableEq ι] {id : κ → ι} {sm : SimpleMap κ ν} {es : List (κ × ν)}

omit [DecidableEq ι] in
theorem Stores.next_eq (h : Stores id sm es) (index : Nat) :
    sm.next index = es[index]?.map fun e => ⟨e.1, e.2⟩ := by
  obtain ⟨kt, hk, -⟩ := h.keys
  obtain ⟨vt, hv, -⟩ := h.values
  simp only [next, hk, hv, h.top]
  by_cases hi : index < es.length
  · rw [if_neg (by omega), slot_append_left Prod.fst es kt hi, slot_append_left Prod.snd es vt hi,
      List.getElem?_eq_getElem hi]
    rfl
  · rw [if_pos (by omega), List.getElem?_eq_none (by omega)]
    rfl

omit [DecidableEq ι] in
/-- The iterator goes through the entries. -/
theorem Stores.pairs_eq (h : Stores id sm es) : sm.pairs = es.map fun e => ⟨e.1, e.2⟩ := by
  have hfrom : ∀ pre suf : List (κ × ν), es = pre ++ suf →
      sm.pairsFrom suf.length pre.length = suf.map fun e => ⟨e.1, e.2⟩ := by
    intro pre suf hes
    induction suf generalizing pre with
    | nil => rfl
    | cons e suf ih =>
      have hget : es[pre.length]? = some e := by simp [hes]
      have hrec := ih (pre ++ [e]) (by simp [hes])
      rw [List.length_append, List.length_singleton] at hrec
      rw [List.length_cons, pairsFrom, h.next_eq, hget]
      simp only [Option.map_some, hrec, List.map_cons]
  rw [pairs, h.top_succ]
  exact hfrom [] es rfl

end SimpleMap

/-- A config dictionary with the entries `es`: strings without a NUL, and no value is NULL. -/
structure ConfigMap (dict : ConfigDict) (es : List (KeyNode × ValueNode)) : Prop where
  stores : SimpleMap.Stores KeyNode.id dict (es.map fun e => (e.1, some e.2))
  keys : ∀ e ∈ es, e.1.content ≠ [] ∧ 0 ∉ e.1.content
  values : ∀ e ∈ es, e.2.dtype = .bulkStr ∧ 0 ∉ e.2.content
  length : 1 ≤ es.length ∧ es.length ≤ 4999999

/-- The keys and the values, in map order. -/
def contents (es : List (KeyNode × ValueNode)) : List (Bytes × Bytes) :=
  es.map fun e => (e.1.content, e.2.content)

/-- The entries whose key matches an argument, by the first one that it matches, then in map
order. -/
def matching (lc : Libc) (bnode : List Node) (es : List (KeyNode × ValueNode)) :
    List (Bytes × Bytes) :=
  select lc.matchesKey (patterns bnode) (contents es)

/-- CONFIG GET returns the array of the entries that match. -/
def ListsMatches (lc : Libc) (bnode : List Node) (dict : ConfigDict)
    (es : List (KeyNode × ValueNode)) : Prop :=
  handleConfGet lc bnode dict = .ok (some (confArray (matching lc bnode es)).encode)

section ListsMatches

variable {dict : ConfigDict} {es : List (KeyNode × ValueNode)}

theorem ConfigMap.contents_eq (h : ConfigMap dict es) :
    dict.pairs.filterMap entryContents = contents es := by
  rw [h.stores.pairs_eq, List.map_map, List.filterMap_map, contents, ← List.filterMap_eq_map]
  refine List.filterMap_congr fun e he => ?_
  have hd : ¬ e.2.dtype ≠ .bulkStr := not_not_intro (h.values e he).1
  exact if_neg hd

theorem ConfigMap.distinct (h : ConfigMap dict es) : ((contents es).map Prod.fst).Nodup := by
  have hd := h.stores.distinct
  rw [Keyed.Distinct, List.map_map] at hd
  rw [contents, List.map_map]
  exact hd

theorem ConfigMap.listsMatches (h : ConfigMap dict es) (lc : Libc) {bnode : List Node}
    (hne : bnode ≠ []) (hmax : (confArray (matching lc bnode es)).encode.length < 2 ^ 31) :
    ListsMatches lc bnode dict es := by
  obtain ⟨kt, hk, -⟩ := h.stores.keys
  obtain ⟨vt, hv, -⟩ := h.stores.values
  have htop := h.stores.top
  have hlen := h.length
  rw [List.length_map] at htop
  have hlisted : listed lc bnode dict.pairs = matching lc bnode es := by
    rw [listed, h.contents_eq]
    rfl
  rw [ListsMatches, ← hlisted]
  refine handleConfGet_listed hne ⟨by omega, by rw [hk]; rfl, by rw [hv]; rfl⟩ ?_ ?_ ?_ ?_
  · rw [h.contents_eq]
    exact h.distinct
  · rw [h.contents_eq]
    intro e he
    obtain ⟨x, hx, rfl⟩ := List.mem_map.mp he
    exact ⟨(h.keys x hx).2, (h.values x hx).2⟩
  · rw [h.stores.pairs_eq, List.length_map, List.length_map]
    omega
  · rw [hlisted]
    exact hmax

/-- No slot behind the last one is written. -/
theorem ConfigMap.slots (h : ConfigMap dict es) (lc : Libc) (bnode : List Node) :
    confGetNodes lc dict (dict.top + 1).toNat bnode ⟨[], [], 0, 0⟩ ≠ .error .outOfBounds := by
  have hz : ∀ e ∈ dict.pairs.filterMap entryContents, 0 ∉ e.1 := by
    rw [h.contents_eq]
    intro e he
    obtain ⟨x, hx, rfl⟩ := List.mem_map.mp he
    exact (h.keys x hx).2
  have hg := (gathered_nil dict.pairs).nodes hz lc bnode
  intro hout
  rw [hout] at hg
  generalize hr : gatherNodes lc dict.pairs bnode [] = run at hg
  cases hg with
  | error f => cases gatherNodes_error hr

/-- CONFIG GET lists the entries that match exactly if the array is smaller than `2^31`. They are
those whose key matches a bulk string among the arguments, each once, by the first one that it
matches, then in map order; and it never writes behind the arrays, whatever the sizes. -/
theorem listsMatches_iff (h : ConfigMap dict es) (lc : Libc) {bnode : List Node}
    (hne : bnode ≠ []) :
    (ListsMatches lc bnode dict es ↔
      (confArray (matching lc bnode es)).encode.length < 2 ^ 31) ∧
    (∀ e, e ∈ matching lc bnode es ↔
      e ∈ contents es ∧ ∃ p ∈ patterns bnode, lc.doesTheStringsMatch p e.1 = true) ∧
    (matching lc bnode es).Nodup ∧
    ((matching lc bnode es).Pairwise fun a b =>
      rank lc.matchesKey (patterns bnode) a < rank lc.matchesKey (patterns bnode) b ∨
        rank lc.matchesKey (patterns bnode) a = rank lc.matchesKey (patterns bnode) b ∧
          (contents es).idxOf a < (contents es).idxOf b) ∧
    confGetNodes lc dict (dict.top + 1).toNat bnode ⟨[], [], 0, 0⟩ ≠ .error .outOfBounds := by
  have hnodup : (contents es).Nodup := List.Nodup.of_map _ h.distinct
  refine ⟨⟨fun hlist => handleConfGet_length hlist, h.listsMatches lc hne⟩, fun e => mem_select,
    nodup_select hnodup, pairwise_select ?_, h.slots lc bnode⟩
  rw [List.pairwise_iff_getElem]
  intro i j hi hj hij
  rwa [hnodup.idxOf_getElem i hi, hnodup.idxOf_getElem j hj]

end ListsMatches

/-- Two entries, in a map with no free slot. -/
def twoEntries : List (KeyNode × ValueNode) :=
  [(⟨ascii "dir", ⟨0, 0⟩, 0, 0⟩, ⟨ascii "/tmp", .bulkStr⟩),
    (⟨ascii "dbfilename", ⟨0, 0⟩, 0, 0⟩, ⟨ascii "a.rdb", .bulkStr⟩)]

def twoDict : ConfigDict :=
  ⟨some (twoEntries.map fun e => some e.1), some (twoEntries.map fun e => some (some e.2)), 2, 1⟩

theorem configMap_twoDict : ConfigMap twoDict twoEntries where
  stores := ⟨⟨[], rfl, rfl⟩, ⟨[], rfl, rfl⟩, rfl, by decide,
    (by decide : [ascii "dir", ascii "dbfilename"].Nodup)⟩
  keys := by decide
  values := by decide
  length := by decide

/-- The first argument matches the second entry, and the last one is a repetition. -/
theorem listsMatches_twoDict :
    ListsMatches .exact [.bulk (ascii "DBFILENAME"), .array 0 [], .bulk (ascii "dir"),
      .bulk (ascii "Dir")] twoDict twoEntries ∧
    matching .exact [.bulk (ascii "DBFILENAME"), .array 0 [], .bulk (ascii "dir"),
      .bulk (ascii "Dir")] twoEntries =
      [(ascii "dbfilename", ascii "a.rdb"), (ascii "dir", ascii "/tmp")] := by
  obtain ⟨hiff, -⟩ := listsMatches_iff configMap_twoDict .exact
    (List.cons_ne_nil (.bulk (ascii "DBFILENAME")) [.array 0 [], .bulk (ascii "dir"),
      .bulk (ascii "Dir")])
  exact ⟨hiff.mpr (by decide), by decide⟩

/-! ## A value that is too long -/

/-- A dictionary with one entry, whose key is `a`. -/
def oneDict (value : Bytes) : ConfigDict :=
  ⟨some [some ⟨[97], ⟨0, 0⟩, 0, 0⟩], some [some (some ⟨value, .bulkStr⟩)], 1, 0⟩

theorem configMap_oneDict {value : Bytes} (hz : 0 ∉ value) :
    ConfigMap (oneDict value) [(⟨[97], ⟨0, 0⟩, 0, 0⟩, ⟨value, .bulkStr⟩)] where
  stores := ⟨⟨[], rfl, rfl⟩, ⟨[], rfl, rfl⟩, rfl, Int.one_pos, List.nodup_singleton _⟩
  keys := by simp
  values := by simpa using hz
  length := ⟨Nat.le_refl 1, Nat.le_add_left 1 4999998⟩

/-- The entry is left out if an `int` cannot hold the size of its text. -/
theorem handleConfGet_oneDict {value : Bytes} (h : ¬ IntSized value) :
    handleConfGet .exact [.bulk [97]] (oneDict value) = .ok (some (ascii "*0\r\n")) := by
  have hins : insertKeyValueStrToStrArray 1 ⟨⟨[97], ⟨0, 0⟩, 0, 0⟩, some ⟨value, .bulkStr⟩⟩
      ⟨[], [], 0, 0⟩ = .ok ⟨[], [], 0, 0⟩ := by
    simp only [insertKeyValueStrToStrArray, keyOrValueNodeToString, allocated_bulkString, if_neg h]
    rfl
  have hgather : confGetNodes .exact (oneDict value) 1 [.bulk [97]] ⟨[], [], 0, 0⟩ =
      .ok ⟨[], [], 0, 0⟩ := by
    have hpairs : (oneDict value).pairs = [⟨⟨[97], ⟨0, 0⟩, 0, 0⟩, some ⟨value, .bulkStr⟩⟩] := rfl
    have hmatch : Libc.exact.doesTheStringsMatch [97] [97] = true := by decide
    rw [confGetNodes, hpairs, confGetEntries]
    simp only [hmatch, if_true, hins]
    rfl
  have htop : ((oneDict value).top + 1).toNat = 1 := rfl
  have hguard : ([Node.bulk [97]].isEmpty || (oneDict value).keys.isNone ||
      (oneDict value).values.isNone || (oneDict value).top < 0) = false := rfl
  simp only [handleConfGet, hguard, Bool.false_eq_true, if_false, htop, hgather]
  rfl

theorem length_lt_bulkString (content : Bytes) :
    content.length + 5 < (bulkString content).length := by
  have hd : 0 < (decimal content.length).length :=
    List.length_pos_iff.mpr (decimal_ne_nil content.length)
  rw [bulkString_eq_encode, Resp.encode]
  simp only [List.length_cons, List.length_append, List.length_nil]
  omega

theorem ConfigMap.not_listsMatches {value : Bytes} (h : ¬ IntSized value) :
    ¬ ListsMatches .exact [.bulk [97]] (oneDict value)
      [(⟨[97], ⟨0, 0⟩, 0, 0⟩, ⟨value, .bulkStr⟩)] := by
  intro hlist
  have hmatching : matching .exact [.bulk [97]] [(⟨[97], ⟨0, 0⟩, 0, 0⟩, ⟨value, .bulkStr⟩)] =
      [([97], value)] := by
    have hmatch : Libc.exact.matchesKey [97] ([97], value) = true :=
      (by decide : Libc.exact.doesTheStringsMatch [97] [97] = true)
    simp [matching, patterns, contents, select, hmatch]
  have hlen := handleConfGet_length hlist
  rw [hmatching] at hlen
  exact h (intSized_of_length_lt hlen ([97], value) (List.mem_singleton_self _)).2

/-- One value of `2^31 - 5` bytes: the reply is an empty array. -/
theorem longValue_not_listsMatches :
    ConfigMap (oneDict (List.replicate (2 ^ 31 - 5) 97))
      [(⟨[97], ⟨0, 0⟩, 0, 0⟩, ⟨List.replicate (2 ^ 31 - 5) 97, .bulkStr⟩)] ∧
    handleConfGet .exact [.bulk [97]] (oneDict (List.replicate (2 ^ 31 - 5) 97)) =
      .ok (some (ascii "*0\r\n")) ∧
    ¬ ListsMatches .exact [.bulk [97]] (oneDict (List.replicate (2 ^ 31 - 5) 97))
      [(⟨[97], ⟨0, 0⟩, 0, 0⟩, ⟨List.replicate (2 ^ 31 - 5) 97, .bulkStr⟩)] := by
  have hz : (0 : UInt8) ∉ List.replicate (2 ^ 31 - 5) 97 := by
    intro h
    have heq := List.eq_of_mem_replicate h
    cases heq
  have hlong : ¬ IntSized (List.replicate (2 ^ 31 - 5) 97) := by
    have hlen := length_lt_bulkString (List.replicate (2 ^ 31 - 5) 97)
    rw [List.length_replicate] at hlen
    unfold IntSized
    omega
  exact ⟨configMap_oneDict hz, handleConfGet_oneDict hlong, ConfigMap.not_listsMatches hlong⟩

end RedisImpl
