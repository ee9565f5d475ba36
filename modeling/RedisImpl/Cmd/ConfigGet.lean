import RedisImpl.Cmd.Config
import RedisImpl.Lib.Select

/-!
# CONFIG GET

`handle_conf_get` refines a gathering on lists (`gatherNodes`): its arrays and counters are those of
the list (`Gathered`), and there is a slot for each entry (`Gathers.nodes`). The list is a selection
by patterns (`gatherNodes_eq`), and it is printed as one array, if the array is not too large for an
`int` (`Gathered.response`).

* `listsMatches_iff`: CONFIG GET lists the matches exactly if the reply is smaller than `2^31`.
* `Configured.handleConfGet_eq`: so it is for a dictionary that `setup` builds.
-/

namespace RedisImpl

theorem bulkString_eq_encode (content : Bytes) : bulkString content = (Resp.bulk content).encode := by
  rw [bulkString, Resp.encode, show ascii "$" = [36] from rfl, show ascii "\r\n" = [13, 10] from rfl]
  simp

theorem zero_mem_bulkString {content : Bytes} : 0 ∈ bulkString content ↔ 0 ∈ content := by
  have hd := zero_notMem_decimal content.length
  rw [bulkString_eq_encode, Resp.encode]
  simp [hd]

namespace SimpleMap

theorem length_pairsFrom_le {κ ν : Type} (sm : SimpleMap κ ν) (n index : Nat) :
    (sm.pairsFrom n index).length ≤ n := by
  induction n generalizing index with
  | zero => exact Nat.le_refl 0
  | succ n ih =>
    rw [pairsFrom]
    cases sm.next index with
    | none => exact Nat.zero_le _
    | some kvp => exact Nat.succ_le_succ (ih (index + 1))

end SimpleMap

/-! ## Gathering on lists -/

/-- An entry of the config dictionary. -/
abbrev ConfEntry := KeyValuePair KeyNode (Option ValueNode)

/-- The contents of the key and the value of an entry that `insert_key_value_str_to_str_array`
takes. -/
def entryContents (kvp : ConfEntry) : Option (Bytes × Bytes) :=
  match kvp.value with
  | none => none
  | some value => if value.dtype ≠ .bulkStr then none else some (kvp.key.content, value.content)

/-- Its text has a size that an `int` can hold. -/
def IntSized (content : Bytes) : Prop := (bulkString content).length + 1 < 2 ^ 31

instance (content : Bytes) : Decidable (IntSized content) := inferInstanceAs (Decidable (_ < _))

theorem allocated_bulkString (content : Bytes) :
    allocated (bulkString content) = if IntSized content then some (bulkString content) else none := rfl

/-- `insert_key_value_str_to_str_array`, on the list of the entries that are in the arrays. -/
def insertEntry (kvp : ConfEntry) (es : List (Bytes × Bytes)) : Except Fault (List (Bytes × Bytes)) :=
  match entryContents kvp with
  | none => .ok es
  | some e =>
    if ¬ IntSized e.1 ∧ es ≠ [] then .error .dangling else
    if IntSized e.1 ∧ IntSized e.2 ∧ e.1 ∉ es.map Prod.fst then .ok (es ++ [e]) else .ok es

/-- The inner loop. -/
def gatherEntries (lc : Libc) (content : Bytes) :
    List ConfEntry → List (Bytes × Bytes) → Except Fault (List (Bytes × Bytes))
  | [], es => .ok es
  | kvp :: kvps, es => do
    let es ← if lc.doesTheStringsMatch content kvp.key.content then insertEntry kvp es else .ok es
    gatherEntries lc content kvps es

/-- The outer loop. -/
def gatherNodes (lc : Libc) (kvps : List ConfEntry) :
    List Node → List (Bytes × Bytes) → Except Fault (List (Bytes × Bytes))
  | [], es => .ok es
  | .array _ _ :: next, es => gatherNodes lc kvps next es
  | .bulk content :: next, es => do
    let es ← gatherEntries lc content kvps es
    gatherNodes lc kvps next es

/-! ## The arrays -/

/-- `g` holds the entries `es`, which are some of the entries `kvps`, with different keys. -/
structure Gathered (kvps : List ConfEntry) (g : ConfGet) (es : List (Bytes × Bytes)) : Prop where
  keyArray : g.keyArray = es.map fun e => bulkString e.1
  valueArray : g.valueArray = es.map fun e => bulkString e.2
  keyBytes : g.totalBytesKeyArr = BitVec.ofNat 32 g.keyArray.flatten.length
  valueBytes : g.totalBytesValArr = BitVec.ofNat 32 g.valueArray.flatten.length
  nodup : (es.map Prod.fst).Nodup
  mem : ∀ e ∈ es, e ∈ kvps.filterMap entryContents

/-- The arrays hold what was gathered, or both went wrong. -/
inductive Gathers (kvps : List ConfEntry) :
    Except Fault ConfGet → Except Fault (List (Bytes × Bytes)) → Prop
  | error (f : Fault) : Gathers kvps (.error f) (.error f)
  | ok {g : ConfGet} {es : List (Bytes × Bytes)} (h : Gathered kvps g es) : Gathers kvps (.ok g) (.ok es)

section Gathered

variable {kvps : List ConfEntry} {g : ConfGet} {es : List (Bytes × Bytes)}

theorem gathered_nil (kvps : List ConfEntry) : Gathered kvps ⟨[], [], 0, 0⟩ [] where
  keyArray := rfl
  valueArray := rfl
  keyBytes := rfl
  valueBytes := rfl
  nodup := List.nodup_nil
  mem := by simp

theorem Gathers.bind {x : Except Fault ConfGet} {y : Except Fault (List (Bytes × Bytes))}
    {f : ConfGet → Except Fault ConfGet}
    {k : List (Bytes × Bytes) → Except Fault (List (Bytes × Bytes))} (h : Gathers kvps x y)
    (hf : ∀ g es, Gathered kvps g es → Gathers kvps (f g) (k es)) :
    Gathers kvps (x >>= f) (y >>= k) := by
  cases h with
  | error e => exact .error e
  | ok h => exact hf _ _ h

theorem Gathered.length_le (h : Gathered kvps g es) : es.length ≤ kvps.length :=
  calc es.length ≤ (kvps.filterMap entryContents).length :=
        ((List.Nodup.of_map _ h.nodup).subperm h.mem).length_le
    _ ≤ kvps.length := List.length_filterMap_le _ _

theorem Gathered.nrInsertedEl (h : Gathered kvps g es) : g.nrInsertedEl = es.length := by
  rw [ConfGet.nrInsertedEl, h.keyArray, List.length_map]

/-- One more entry, with a new key. -/
theorem Gathered.append (h : Gathered kvps g es) {e : Bytes × Bytes}
    (hmem : e ∈ kvps.filterMap entryContents) (hnew : e.1 ∉ es.map Prod.fst) :
    Gathered kvps
      { keyArray := g.keyArray ++ [bulkString e.1]
        valueArray := g.valueArray ++ [bulkString e.2]
        totalBytesKeyArr := g.totalBytesKeyArr + BitVec.ofNat 32 (bulkString e.1).length
        totalBytesValArr := g.totalBytesValArr + BitVec.ofNat 32 (bulkString e.2).length }
      (es ++ [e]) where
  keyArray := by simp [h.keyArray]
  valueArray := by simp [h.valueArray]
  keyBytes := by simp [h.keyBytes, BitVec.ofNat_add]
  valueBytes := by simp [h.valueBytes, BitVec.ofNat_add]
  nodup := by
    rw [List.map_append]
    refine List.Nodup.append h.nodup (List.nodup_singleton _) ?_
    rw [List.disjoint_right]
    intro k hk
    rwa [List.mem_singleton.mp hk]
  mem x hx := by
    rcases List.mem_append.mp hx with hx | hx
    · exact h.mem x hx
    · rwa [List.mem_singleton.mp hx]

theorem bulkString_inj {k k' : Bytes} (h : bulkString k = bulkString k') : k = k' := by
  rw [bulkString_eq_encode, bulkString_eq_encode] at h
  obtain ⟨heq, -⟩ := Resp.encode_append_inj (.bulk k) (.bulk k') (congrArg (· ++ []) h)
  exact Resp.bulk.inj heq

theorem isItPossible_some (arr : List Bytes) (str : Bytes) :
    isItPossibleToInsertTheStrInArray arr (some str) =
      .ok (arr.all fun value => cstr str ≠ cstr value) := by
  cases arr <;> rfl

/-- Comparing the texts of keys without a NUL is comparing the keys. -/
theorem Gathered.isItPossible (h : Gathered kvps g es) {k : Bytes} (hk : 0 ∉ k)
    (hes : ∀ e ∈ es, 0 ∉ e.1) :
    isItPossibleToInsertTheStrInArray g.keyArray (allocated (bulkString k)) =
      if ¬ IntSized k ∧ es ≠ [] then .error .dangling else .ok (decide (k ∉ es.map Prod.fst)) := by
  rw [h.keyArray, allocated_bulkString]
  by_cases hf : IntSized k
  · have hstr : ∀ x : Bytes, 0 ∉ x → cstr (bulkString x) = bulkString x := fun x hx =>
      cstr_eq_self (mt zero_mem_bulkString.mp hx)
    have hcmp : ∀ x ∈ es, (cstr (bulkString k) ≠ cstr (bulkString x.1)) ↔ k ≠ x.1 := by
      intro x hx
      rw [hstr k hk, hstr x.1 (hes x hx)]
      exact not_congr ⟨bulkString_inj, congrArg bulkString⟩
    rw [if_pos hf, if_neg (fun hn => hn.1 hf), isItPossible_some, Except.ok.injEq, Bool.eq_iff_iff,
      List.all_eq_true, decide_eq_true_iff]
    constructor
    · intro hall hm
      obtain ⟨x, hx, rfl⟩ := List.mem_map.mp hm
      have hne := of_decide_eq_true (hall _ (List.mem_map_of_mem hx))
      exact (hcmp x hx).mp hne rfl
    · intro hm y hy
      obtain ⟨x, hx, rfl⟩ := List.mem_map.mp hy
      refine decide_eq_true ((hcmp x hx).mpr ?_)
      rintro rfl
      exact hm (List.mem_map_of_mem hx)
  · rw [if_neg hf]
    cases es with
    | nil => simp [isItPossibleToInsertTheStrInArray]
    | cons e es =>
      rw [if_pos ⟨hf, List.cons_ne_nil _ _⟩]
      rfl

/-- One entry: there is a slot for it. -/
theorem Gathered.insert (h : Gathered kvps g es) (hz : ∀ e ∈ kvps.filterMap entryContents, 0 ∉ e.1)
    {size : Nat} (hsize : kvps.length ≤ size) {kvp : ConfEntry} (hmem : kvp ∈ kvps) :
    Gathers kvps (insertKeyValueStrToStrArray size kvp g) (insertEntry kvp es) := by
  unfold insertKeyValueStrToStrArray insertEntry
  cases hv : kvp.value with
  | none =>
    simp only [entryContents, hv]
    exact .ok h
  | some value =>
    by_cases hd : value.dtype ≠ .bulkStr
    · simp only [entryContents, hv, if_pos hd]
      exact .ok h
    · have hent : entryContents kvp = some (kvp.key.content, value.content) := by
        rw [entryContents, hv]
        exact if_neg hd
      have hin : (kvp.key.content, value.content) ∈ kvps.filterMap entryContents :=
        List.mem_filterMap.mpr ⟨kvp, hmem, hent⟩
      simp only [hent, if_neg hd, keyOrValueNodeToString,
        h.isItPossible (hz _ hin) fun e he => hz e (h.mem e he)]
      -- a key whose size is no `int` has no bulk string, which the comparison with the others reads
      by_cases hdang : ¬ IntSized kvp.key.content ∧ es ≠ []
      · rw [if_pos hdang, if_pos hdang]
        exact .error .dangling
      · rw [if_neg hdang, if_neg hdang]
        by_cases hnew : kvp.key.content ∈ es.map Prod.fst
        · rw [if_neg fun hc => hc.2.2 hnew, decide_eq_false (not_not_intro hnew)]
          exact .ok h
        · rw [decide_eq_true hnew]
          by_cases hk : IntSized kvp.key.content
          · by_cases hval : IntSized value.content
            · have hg := h.append hin hnew
              have hlen := hg.length_le
              rw [List.length_append, List.length_singleton] at hlen
              -- the entries that are in come from the dictionary, and this one is another
              have hroom : ¬ size ≤ g.nrInsertedEl := by
                rw [h.nrInsertedEl]
                omega
              simp only [allocated_bulkString, if_pos hk, if_pos hval, if_neg hroom]
              rw [if_pos ⟨hk, hval, hnew⟩]
              exact .ok hg
            · simp only [allocated_bulkString, if_pos hk, if_neg hval]
              rw [if_neg fun hc => hval hc.2.1]
              exact .ok h
          · simp only [allocated_bulkString, if_neg hk]
            rw [if_neg fun hc => hk hc.1]
            exact .ok h

theorem Gathered.entries (h : Gathered kvps g es)
    (hz : ∀ e ∈ kvps.filterMap entryContents, 0 ∉ e.1) {size : Nat} (hsize : kvps.length ≤ size)
    (lc : Libc) (content : Bytes) {rest : List ConfEntry} (hrest : ∀ kvp ∈ rest, kvp ∈ kvps) :
    Gathers kvps (confGetEntries lc size content rest g) (gatherEntries lc content rest es) := by
  induction rest generalizing g es with
  | nil => exact .ok h
  | cons kvp rest ih =>
    have hrest' : ∀ x ∈ rest, x ∈ kvps := fun x hx => hrest x (List.mem_cons_of_mem _ hx)
    rw [confGetEntries, gatherEntries]
    split
    · exact (h.insert hz hsize (hrest kvp List.mem_cons_self)).bind fun g' es' h' => ih h' hrest'
    · exact ih h hrest'

/-- The arrays never run out of slots. -/
theorem Gathered.nodes {configDict : ConfigDict} (h : Gathered configDict.pairs g es)
    (hz : ∀ e ∈ configDict.pairs.filterMap entryContents, 0 ∉ e.1) (lc : Libc) (bnode : List Node) :
    Gathers configDict.pairs (confGetNodes lc configDict (configDict.top + 1).toNat bnode g)
      (gatherNodes lc configDict.pairs bnode es) := by
  induction bnode generalizing g es with
  | nil => exact .ok h
  | cons n next ih =>
    cases n with
    | array size content => exact ih h
    | bulk content =>
      rw [confGetNodes, gatherNodes]
      refine Gathers.bind ?_ fun g' es' h' => ih h'
      exact h.entries hz (SimpleMap.length_pairsFrom_le configDict _ 0) lc content fun kvp hk => hk

end Gathered

/-! ## What is gathered -/

/-- The bulk strings among the arguments. -/
def patterns (bnode : List Node) : List Bytes := bnode.filterMap Node.bulkContent

/-- The entry's key matches the pattern. -/
def Libc.matchesKey (lc : Libc) (pattern : Bytes) (e : Bytes × Bytes) : Bool :=
  lc.doesTheStringsMatch pattern e.1

/-- The entries that are not there yet. -/
def absent (es : List (Bytes × Bytes)) (e : Bytes × Bytes) : Bool := e.1 ∉ es.map Prod.fst

section Select

variable {lc : Libc} {kvps : List ConfEntry} {es : List (Bytes × Bytes)}

theorem entryContents_fst {kvp : ConfEntry} {e : Bytes × Bytes} (h : entryContents kvp = some e) :
    e.1 = kvp.key.content := by
  unfold entryContents at h
  split at h
  · cases h
  · split at h
    · cases h
    · cases h
      rfl

theorem insertEntry_absent {kvp : ConfEntry} {e : Bytes × Bytes} (h : entryContents kvp = some e)
    (hf : IntSized e.1 ∧ IntSized e.2) (hnew : e.1 ∉ es.map Prod.fst) :
    insertEntry kvp es = .ok (es ++ [e]) := by
  rw [insertEntry, h]
  simp only [if_neg fun hn : ¬ IntSized e.1 ∧ es ≠ [] => hn.1 hf.1]
  exact if_pos ⟨hf.1, hf.2, hnew⟩

theorem insertEntry_present {kvp : ConfEntry} {e : Bytes × Bytes} (h : entryContents kvp = some e)
    (hes : ∀ x ∈ es, IntSized x.1) (hold : e.1 ∈ es.map Prod.fst) : insertEntry kvp es = .ok es := by
  obtain ⟨x, hx, heq⟩ := List.mem_map.mp hold
  have hf : IntSized e.1 := heq ▸ hes x hx
  rw [insertEntry, h]
  simp only [if_neg fun hn : ¬ IntSized e.1 ∧ es ≠ [] => hn.1 hf]
  exact if_neg fun hc => hc.2.2 hold

/-- A pattern adds its matches that are not there yet. -/
theorem gatherEntries_eq (content : Bytes)
    (hd : ((kvps.filterMap entryContents).map Prod.fst).Nodup) (hes : ∀ e ∈ es, IntSized e.1)
    (hfit : ∀ e ∈ (kvps.filterMap entryContents).filter (absent es),
      lc.matchesKey content e = true → IntSized e.1 ∧ IntSized e.2) :
    gatherEntries lc content kvps es =
      .ok (es ++ ((kvps.filterMap entryContents).filter (absent es)).filter
        (lc.matchesKey content)) := by
  induction kvps generalizing es with
  | nil => simp [gatherEntries]
  | cons kvp kvps ih =>
    rw [gatherEntries]
    cases hent : entryContents kvp with
    | none =>
      rw [List.filterMap_cons_none hent] at hd hfit ⊢
      have hins : insertEntry kvp es = .ok es := by rw [insertEntry, hent]
      rw [hins, ite_self]
      exact ih hd hes hfit
    | some e =>
      rw [List.filterMap_cons_some hent] at hd hfit ⊢
      rw [List.map_cons, List.nodup_cons] at hd
      rw [← entryContents_fst hent]
      by_cases hold : e.1 ∈ es.map Prod.fst
      · have habs : absent es e = false := by simpa [absent] using hold
        rw [List.filter_cons_of_neg (by rw [habs]; exact Bool.false_ne_true)] at hfit ⊢
        rw [insertEntry_present hent hes hold, ite_self]
        exact ih hd.2 hes hfit
      · have habs : absent es e = true := by simpa [absent] using hold
        rw [List.filter_cons_of_pos habs] at hfit ⊢
        by_cases hm : lc.matchesKey content e = true
        · have hf := hfit e List.mem_cons_self hm
          -- the key of the new entry does not stand behind it
          have hsame : (kvps.filterMap entryContents).filter (absent (es ++ [e])) =
              (kvps.filterMap entryContents).filter (absent es) := by
            refine List.filter_congr fun x hx => ?_
            have hne : x.1 ≠ e.1 := fun heq => hd.1 (heq ▸ List.mem_map_of_mem hx)
            simp [absent, hne]
          rw [List.filter_cons_of_pos hm, show lc.doesTheStringsMatch content e.1 = true from hm,
            if_pos rfl, insertEntry_absent hent hf hold]
          refine (ih hd.2 ?_ ?_).trans ?_
          · intro x hx
            rcases List.mem_append.mp hx with hx | hx
            · exact hes x hx
            · rw [List.mem_singleton.mp hx]
              exact hf.1
          · rw [hsame]
            exact fun x hx => hfit x (List.mem_cons_of_mem _ hx)
          · rw [hsame, List.append_assoc, List.singleton_append]
        · rw [List.filter_cons_of_neg hm,
            if_neg (show ¬ lc.doesTheStringsMatch content e.1 = true from hm)]
          exact ih hd.2 hes fun x hx => hfit x (List.mem_cons_of_mem _ hx)

/-- After a pattern, the entries that are not there yet are those that do not match it either. -/
theorem filter_absent_append (content : Bytes) (ents : List (Bytes × Bytes)) :
    ents.filter (absent (es ++ (ents.filter (absent es)).filter (lc.matchesKey content))) =
      (ents.filter (absent es)).filter fun e => !lc.matchesKey content e := by
  refine (List.filter_congr fun e he => ?_).trans List.filter_filter.symm
  rw [Bool.eq_iff_iff]
  simp only [absent, decide_eq_true_iff, List.map_append, List.mem_append, not_or,
    Bool.and_eq_true, Bool.not_eq_true', and_comm (a := e.1 ∉ es.map Prod.fst)]
  refine and_congr_left fun hold => ?_
  constructor
  · intro hnew
    by_contra hm
    rw [Bool.not_eq_false] at hm
    refine hnew (List.mem_map_of_mem (List.mem_filter.mpr ⟨List.mem_filter.mpr ⟨he, ?_⟩, hm⟩))
    simpa [absent] using hold
  · intro hm hin
    obtain ⟨x, hx, heq⟩ := List.mem_map.mp hin
    have hxm := (List.mem_filter.mp hx).2
    rw [Libc.matchesKey, heq] at hxm
    rw [Libc.matchesKey, hxm] at hm
    cases hm

/-- The arguments select the entries. -/
theorem gatherNodes_eq (bnode : List Node)
    (hd : ((kvps.filterMap entryContents).map Prod.fst).Nodup) (hes : ∀ e ∈ es, IntSized e.1)
    (hfit : ∀ e ∈ select lc.matchesKey (patterns bnode)
      ((kvps.filterMap entryContents).filter (absent es)), IntSized e.1 ∧ IntSized e.2) :
    gatherNodes lc kvps bnode es =
      .ok (es ++ select lc.matchesKey (patterns bnode)
        ((kvps.filterMap entryContents).filter (absent es))) := by
  induction bnode generalizing es with
  | nil => simp [gatherNodes, patterns, select]
  | cons n next ih =>
    cases n with
    | array size content => exact ih hes hfit
    | bulk content =>
      have hsel : patterns (.bulk content :: next) = content :: patterns next := rfl
      rw [hsel, select] at hfit ⊢
      rw [gatherNodes, gatherEntries_eq content hd hes]
      · rw [← filter_absent_append] at hfit ⊢
        refine (ih ?_ fun e he => hfit e (List.mem_append_right _ he)).trans ?_
        · intro e he
          rcases List.mem_append.mp he with he | he
          · exact hes e he
          · exact (hfit e (List.mem_append_left _ he)).1
        · rw [List.append_assoc]
      · intro e he hm
        exact hfit e (List.mem_append_left _ (List.mem_filter.mpr ⟨he, hm⟩))

/-- The entries of a dictionary that CONFIG GET lists. -/
def listed (lc : Libc) (bnode : List Node) (kvps : List ConfEntry) : List (Bytes × Bytes) :=
  select lc.matchesKey (patterns bnode) (kvps.filterMap entryContents)

theorem gatherNodes_nil (bnode : List Node)
    (hd : ((kvps.filterMap entryContents).map Prod.fst).Nodup)
    (hfit : ∀ e ∈ listed lc bnode kvps, IntSized e.1 ∧ IntSized e.2) :
    gatherNodes lc kvps bnode [] = .ok (listed lc bnode kvps) := by
  have hall : (kvps.filterMap entryContents).filter (absent []) = kvps.filterMap entryContents :=
    List.filter_eq_self.mpr fun e he => rfl
  have h := @gatherNodes_eq lc kvps [] bnode hd
  rw [hall] at h
  exact h (by simp) hfit

theorem contents_sublist (kvps : List ConfEntry) :
    ((kvps.filterMap entryContents).map Prod.fst).Sublist (kvps.map fun kvp => kvp.key.content) := by
  induction kvps with
  | nil => exact List.Sublist.refl _
  | cons kvp kvps ih =>
    cases hent : entryContents kvp with
    | none =>
      rw [List.filterMap_cons_none hent]
      exact ih.cons _
    | some e =>
      rw [List.filterMap_cons_some hent, List.map_cons, List.map_cons, entryContents_fst hent]
      exact ih.cons_cons _

/-- The only fault is a NULL key. -/
theorem insertEntry_error {kvp : ConfEntry} {f : Fault} (h : insertEntry kvp es = .error f) :
    f = .dangling := by
  unfold insertEntry at h
  split at h
  · cases h
  · split_ifs at h
    cases h
    rfl

theorem error_of_bind {α β : Type} {x : Except Fault α} {k : α → Except Fault β} {f : Fault}
    (h : x >>= k = .error f) : x = .error f ∨ ∃ a, k a = .error f := by
  cases x with
  | error f' =>
    cases h
    exact .inl rfl
  | ok a => exact .inr ⟨a, h⟩

theorem gatherEntries_error {content : Bytes} {f : Fault}
    (h : gatherEntries lc content kvps es = .error f) : f = .dangling := by
  induction kvps generalizing es with
  | nil => cases h
  | cons kvp kvps ih =>
    rw [gatherEntries] at h
    split at h
    · rcases error_of_bind h with hins | ⟨es', hrest⟩
      · exact insertEntry_error hins
      · exact ih hrest
    · exact ih h

theorem gatherNodes_error {bnode : List Node} {f : Fault}
    (h : gatherNodes lc kvps bnode es = .error f) : f = .dangling := by
  induction bnode generalizing es with
  | nil => cases h
  | cons n next ih =>
    cases n with
    | array size content => exact ih h
    | bulk content =>
      rcases error_of_bind h with hents | ⟨es', hrest⟩
      · exact gatherEntries_error hents
      · exact ih hrest

end Select

/-! ## The text -/

/-- Pairs that fit into the buffer, and whose size fits into `pos`, are printed whole. -/
theorem printPairs_eq {totalBytes pos : Nat} {kvs : List (Bytes × Bytes)} {response : Bytes}
    (hz : ∀ kv ∈ kvs, 0 ∉ kv.1 ∧ 0 ∉ kv.2)
    (hfit : pos + (kvs.map fun kv => kv.1 ++ kv.2).flatten.length < totalBytes)
    (hmax : totalBytes ≤ 2 ^ 31) :
    printPairs totalBytes kvs pos response =
      .ok (response ++ (kvs.map fun kv => kv.1 ++ kv.2).flatten) := by
  induction kvs generalizing pos response with
  | nil => simp [printPairs]
  | cons kv kvs ih =>
    obtain ⟨hk, hv⟩ := hz kv List.mem_cons_self
    rw [List.map_cons, List.flatten_cons, List.length_append] at hfit
    rw [printPairs, if_neg (by omega)]
    simp only []
    rw [cstr_eq_self hk, cstr_eq_self hv, if_neg (by omega), List.take_of_length_le (by omega),
      ih (fun kv hkv => hz kv (List.mem_cons_of_mem _ hkv)) (by omega), List.map_cons,
      List.flatten_cons, List.append_assoc]

/-- What is printed is not longer than `pos` says. -/
theorem printPairs_length {totalBytes pos : Nat} {kvs : List (Bytes × Bytes)} {response r : Bytes}
    (h : printPairs totalBytes kvs pos response = .ok r) (hle : response.length ≤ pos)
    (hmax : pos < 2 ^ 31) : r.length < 2 ^ 31 := by
  induction kvs generalizing pos response with
  | nil =>
    cases h
    exact Nat.lt_of_le_of_lt hle hmax
  | cons kv kvs ih =>
    rw [printPairs] at h
    split at h
    · cases h
    · simp only [] at h
      split at h
      · cases h
      · rename_i hpos
        refine ih h ?_ (Nat.not_le.mp hpos)
        rw [List.length_append]
        exact Nat.add_le_add hle (List.length_take_le' _ _)

/-- The array that the entries are printed as. -/
def confArray (es : List (Bytes × Bytes)) : Resp :=
  .array (es.flatMap fun e => [.bulk e.1, .bulk e.2])

theorem encode_confArray (es : List (Bytes × Bytes)) :
    (confArray es).encode = 42 :: (decimal (2 * es.length) ++ 13 :: 10 ::
      (es.map fun e => bulkString e.1 ++ bulkString e.2).flatten) := by
  have henc : Resp.encodeList (es.flatMap fun e => [Resp.bulk e.1, Resp.bulk e.2]) =
      (es.map fun e => bulkString e.1 ++ bulkString e.2).flatten := by
    induction es with
    | nil => rfl
    | cons e es ih =>
      rw [List.flatMap_cons, Resp.encodeList_append, ih, List.map_cons, List.flatten_cons]
      simp [Resp.encodeList, bulkString_eq_encode]
  have hlen : (es.flatMap fun e => [Resp.bulk e.1, Resp.bulk e.2]).length = 2 * es.length := by
    rw [List.length_flatMap]
    simp
    omega
  rw [confArray, Resp.encode, hlen, henc]

theorem zero_notMem_confArray {es : List (Bytes × Bytes)} (hz : ∀ e ∈ es, 0 ∉ e.1 ∧ 0 ∉ e.2) :
    0 ∉ (confArray es).encode := by
  have hd := zero_notMem_decimal (2 * es.length)
  have hes : 0 ∉ (es.map fun e => bulkString e.1 ++ bulkString e.2).flatten := by
    intro h
    obtain ⟨text, htext, h⟩ := List.mem_flatten.mp h
    obtain ⟨e, he, rfl⟩ := List.mem_map.mp htext
    rcases List.mem_append.mp h with h | h
    · exact (hz e he).1 (zero_mem_bulkString.mp h)
    · exact (hz e he).2 (zero_mem_bulkString.mp h)
  rw [encode_confArray]
  simp only [List.mem_cons, List.mem_append, hd, hes]
  decide

theorem length_flatten_append {α β : Type} (f g : α → List β) (es : List α) :
    (es.map fun e => f e ++ g e).flatten.length =
      (es.map f).flatten.length + (es.map g).flatten.length := by
  induction es with
  | nil => rfl
  | cons e es ih =>
    simp only [List.map_cons, List.flatten_cons, List.length_append, ih]
    omega

/-- The size of the array. -/
theorem length_encode_confArray (es : List (Bytes × Bytes)) :
    (confArray es).encode.length = 3 + (decimal (2 * es.length)).length +
      ((es.map fun e => bulkString e.1).flatten.length +
        (es.map fun e => bulkString e.2).flatten.length) := by
  rw [encode_confArray, ← length_flatten_append]
  simp only [List.length_cons, List.length_append]
  omega

/-- The texts of the entries fit if the array does. -/
theorem intSized_of_length_lt {es : List (Bytes × Bytes)} (h : (confArray es).encode.length < 2 ^ 31) :
    ∀ e ∈ es, IntSized e.1 ∧ IntSized e.2 := by
  have hle : ∀ (f : Bytes × Bytes → Bytes), ∀ e ∈ es,
      (f e).length ≤ (es.map f).flatten.length := by
    intro f e he
    exact (List.sublist_flatten_of_mem (List.mem_map_of_mem he)).length_le
  intro e he
  have h1 := hle (fun e => bulkString e.1) e he
  have h2 := hle (fun e => bulkString e.2) e he
  rw [length_encode_confArray] at h
  constructor
  · unfold IntSized
    omega
  · unfold IntSized
    omega

/-- The buffer is as large as the text. -/
theorem Gathered.response {kvps : List ConfEntry} {g : ConfGet} {es : List (Bytes × Bytes)}
    (h : Gathered kvps g es) (hz : ∀ e ∈ es, 0 ∉ e.1 ∧ 0 ∉ e.2)
    (hn : 2 * es.length < 10 ^ 7) (hmax : (confArray es).encode.length < 2 ^ 31) :
    generateConfGetResponse g = .ok (confArray es).encode := by
  rw [length_encode_confArray, ← h.keyArray, ← h.valueArray] at hmax
  have hd : (decimal (2 * es.length)).take 7 = decimal (2 * es.length) :=
    List.take_of_length_le (length_decimal_le (by decide) hn)
  have hzip : g.keyArray.zip g.valueArray = es.map fun e => (bulkString e.1, bulkString e.2) := by
    rw [h.keyArray, h.valueArray, List.zip_map']
  have htext : ((g.keyArray.zip g.valueArray).map fun kv => kv.1 ++ kv.2) =
      es.map fun e => bulkString e.1 ++ bulkString e.2 := by
    rw [hzip, List.map_map]
    rfl
  have hsum : ((g.keyArray.zip g.valueArray).map fun kv => kv.1 ++ kv.2).flatten.length =
      g.keyArray.flatten.length + g.valueArray.flatten.length := by
    rw [htext, length_flatten_append, ← h.keyArray, ← h.valueArray]
  -- the two counters of bytes have not wrapped around
  have hkn : g.totalBytesKeyArr.toNat = g.keyArray.flatten.length := by
    rw [h.keyBytes, BitVec.toNat_ofNat, Nat.mod_eq_of_lt (by omega)]
  have hvn : g.totalBytesValArr.toNat = g.valueArray.flatten.length := by
    rw [h.valueBytes, BitVec.toNat_ofNat, Nat.mod_eq_of_lt (by omega)]
  have hpairs : ∀ kv ∈ g.keyArray.zip g.valueArray, 0 ∉ kv.1 ∧ 0 ∉ kv.2 := by
    rw [hzip]
    intro kv hkv
    obtain ⟨e, he, rfl⟩ := List.mem_map.mp hkv
    exact ⟨mt zero_mem_bulkString.mp (hz e he).1, mt zero_mem_bulkString.mp (hz e he).2⟩
  have hhead : (ascii "*" ++ decimal (2 * es.length) ++ ascii "\r\n").length =
      1 + (decimal (2 * es.length)).length + 2 := by
    simp only [List.length_append, show (ascii "*").length = 1 from rfl,
      show (ascii "\r\n").length = 2 from rfl]
  unfold generateConfGetResponse
  simp only []
  rw [h.nrInsertedEl, hd, List.take_of_length_le (by omega),
    printPairs_eq hpairs (by omega) (by omega), htext, encode_confArray,
    show ascii "*" = [42] from rfl, show ascii "\r\n" = [13, 10] from rfl]
  simp

theorem generateConfGetResponse_length {g : ConfGet} {r : Bytes}
    (h : generateConfGetResponse g = .ok r) : r.length < 2 ^ 31 := by
  unfold generateConfGetResponse at h
  have hhead : (ascii "*" ++ (decimal (2 * g.nrInsertedEl)).take 7 ++ ascii "\r\n").length ≤ 10 := by
    have := List.length_take_le 7 (decimal (2 * g.nrInsertedEl))
    simp only [List.length_append, show (ascii "*").length = 1 from rfl,
      show (ascii "\r\n").length = 2 from rfl]
    omega
  exact printPairs_length h (List.length_take_le' _ _) (by omega)

/-- No reply to CONFIG GET is longer than an `int` can say. -/
theorem handleConfGet_length {lc : Libc} {bnode : List Node} {dict : ConfigDict} {r : Bytes}
    (h : handleConfGet lc bnode dict = .ok (some r)) : r.length < 2 ^ 31 := by
  unfold handleConfGet at h
  split at h
  · cases h
  · simp only [bind, Except.bind] at h
    split at h
    · cases h
    · split at h
      · cases h
        decide
      · split at h
        · cases h
        · rename_i hr
          cases h
          exact generateConfGetResponse_length hr

/-- The reply to CONFIG GET, if it is not too large. -/
theorem handleConfGet_listed {lc : Libc} {bnode : List Node} {dict : ConfigDict}
    (hne : bnode ≠ []) (hs : 0 ≤ dict.top ∧ dict.keys.isSome ∧ dict.values.isSome)
    (hd : ((dict.pairs.filterMap entryContents).map Prod.fst).Nodup)
    (hz : ∀ e ∈ dict.pairs.filterMap entryContents, 0 ∉ e.1 ∧ 0 ∉ e.2)
    (hn : dict.pairs.length < 5000000)
    (hmax : (confArray (listed lc bnode dict.pairs)).encode.length < 2 ^ 31) :
    handleConfGet lc bnode dict = .ok (some (confArray (listed lc bnode dict.pairs)).encode) := by
  obtain ⟨htop, hkeys, hvalues⟩ := hs
  have hguard : (bnode.isEmpty || dict.keys.isNone || dict.values.isNone || dict.top < 0) = false := by
    simp [hne, htop, Option.isNone_eq_false_iff.mpr hkeys, Option.isNone_eq_false_iff.mpr hvalues]
  have hz' : ∀ e ∈ dict.pairs.filterMap entryContents, 0 ∉ e.1 := fun e he => (hz e he).1
  have hgather := (gathered_nil dict.pairs).nodes hz' lc bnode
  rw [gatherNodes_nil bnode hd (intSized_of_length_lt hmax)] at hgather
  generalize hrun : confGetNodes lc dict (dict.top + 1).toNat bnode ⟨[], [], 0, 0⟩ = run at hgather
  cases hgather with
  | @ok g _ hg =>
    simp only [handleConfGet, hguard, Bool.false_eq_true, if_false, hrun, bind, Except.bind]
    split
    · rename_i hnr
      rw [hg.nrInsertedEl] at hnr
      rw [List.length_eq_zero_iff.mp hnr]
      rfl
    · have hlen := hg.length_le
      rw [hg.response (fun e he => hz e (hg.mem e he)) (by omega) hmax]

/-! ## The dictionary that `setup` builds -/

/-- The dictionaries that the server can have: no command writes to it. -/
def Configured (dict : ConfigDict) : Prop :=
  ∃ ra now now' dir dbfilename, setup ra now now' dir dbfilename = some dict

theorem setup_eq {ra : Realloc} {now now' : Timespec} {dir dbfilename : Option Argument}
    {dict : ConfigDict} (h : setup ra now now' dir dbfilename = some dict) :
    dict = ⟨some [some ⟨ascii "dir", now, 0, 0⟩, some ⟨ascii "dbfilename", now', 0, 0⟩],
      some [some (createValueNodeString (dir.getD defaultRedisDir).val .bulkStr),
        some (createValueNodeString (dbfilename.getD defaultRedisRdbfile).val .bulkStr)], 2, 1⟩ := by
  obtain ⟨keys, values, shrink⟩ := ra
  cases keys with
  | false => cases h
  | true =>
    -- the second key does not fit into the one slot of a new map
    cases values with
    | false => cases h
    | true => exact (Option.some.inj h).symm

theorem Configured.pairs {dict : ConfigDict} (h : Configured dict) :
    0 ≤ dict.top ∧ dict.keys.isSome ∧ dict.values.isSome ∧ dict.pairs.length = 2 ∧
      ((dict.pairs.filterMap entryContents).map Prod.fst).Nodup ∧
      ∀ e ∈ dict.pairs.filterMap entryContents,
        (0 ∉ e.1 ∧ 0 ∉ e.2) ∧ e.1.length ≤ 10 ∧ e.2.length < 2 ^ 29 := by
  obtain ⟨ra, now, now', dir, dbfilename, hs⟩ := h
  rw [setup_eq hs]
  refine ⟨Int.one_nonneg, rfl, rfl, rfl, ?_, ?_⟩
  · refine List.Nodup.sublist (contents_sublist _) ?_
    exact (by decide : [ascii "dir", ascii "dbfilename"].Nodup)
  intro e he
  have harg : ∀ (a : Argument) (key : Bytes) (t : Timespec),
      0 ∉ key → key.length ≤ 10 →
      entryContents ⟨⟨key, t, 0, 0⟩, createValueNodeString a.val .bulkStr⟩ = some e →
        (0 ∉ e.1 ∧ 0 ∉ e.2) ∧ e.1.length ≤ 10 ∧ e.2.length < 2 ^ 29 := by
    intro a key t hz hl hent
    unfold createValueNodeString at hent
    split at hent
    · cases hent
    · cases hent
      exact ⟨⟨hz, a.nulFree⟩, hl, a.short⟩
  obtain ⟨kvp, hk, hent⟩ := List.mem_filterMap.mp he
  rcases List.mem_cons.mp hk with rfl | hk
  · exact harg _ _ _ (by decide) (by decide) hent
  · rw [List.mem_singleton.mp hk] at hent
    exact harg _ _ _ (by decide) (by decide) hent

theorem length_bulkString_le {content : Bytes} (h : content.length < 2 ^ 29) :
    (bulkString content).length ≤ content.length + 14 := by
  have hd : (decimal content.length).length ≤ 9 := length_decimal_le (by decide) (by omega)
  rw [bulkString_eq_encode, Resp.encode]
  simp only [List.length_cons, List.length_append, List.length_nil]
  omega

theorem length_flatten_le {α β : Type} {f : α → List β} {es : List α} {n : Nat}
    (hf : ∀ e ∈ es, (f e).length ≤ n) : (es.map f).flatten.length ≤ es.length * n := by
  induction es with
  | nil => exact Nat.zero_le _
  | cons e es ih =>
    have he := hf e List.mem_cons_self
    have := ih fun e he => hf e (List.mem_cons_of_mem _ he)
    rw [List.map_cons, List.flatten_cons, List.length_append, List.length_cons, Nat.succ_mul]
    omega

/-- The reply to CONFIG GET is one array, with no NUL in it. -/
theorem Configured.handleConfGet_eq {dict : ConfigDict} (h : Configured dict) (lc : Libc)
    {bnode : List Node} (hne : bnode ≠ []) :
    ∃ es, handleConfGet lc bnode dict = .ok (some (confArray es).encode) ∧
      0 ∉ (confArray es).encode := by
  obtain ⟨htop, hkeys, hvalues, hlen, hd, hents⟩ := h.pairs
  have hmem : ∀ e ∈ listed lc bnode dict.pairs, e ∈ dict.pairs.filterMap entryContents :=
    fun e he => (mem_select.mp he).1
  have hl : (listed lc bnode dict.pairs).length ≤ 2 := by
    have hnodup : (listed lc bnode dict.pairs).Nodup := nodup_select (List.Nodup.of_map _ hd)
    calc (listed lc bnode dict.pairs).length ≤ (dict.pairs.filterMap entryContents).length :=
          (hnodup.subperm hmem).length_le
      _ ≤ dict.pairs.length := List.length_filterMap_le _ _
      _ = 2 := hlen
  have hk : ∀ e ∈ listed lc bnode dict.pairs, (bulkString e.1).length ≤ 24 := by
    intro e he
    obtain ⟨-, hk, -⟩ := hents e (hmem e he)
    have := length_bulkString_le (Nat.lt_of_le_of_lt hk (by decide))
    omega
  have hv : ∀ e ∈ listed lc bnode dict.pairs, (bulkString e.2).length ≤ 2 ^ 29 + 14 := by
    intro e he
    obtain ⟨-, -, hv⟩ := hents e (hmem e he)
    have := length_bulkString_le hv
    omega
  have hmax : (confArray (listed lc bnode dict.pairs)).encode.length < 2 ^ 31 := by
    have hd : (decimal (2 * (listed lc bnode dict.pairs).length)).length ≤ 1 :=
      length_decimal_le (by decide) (by omega)
    have h1 := length_flatten_le hk
    have h2 := length_flatten_le hv
    rw [length_encode_confArray]
    omega
  exact ⟨_, handleConfGet_listed hne ⟨htop, hkeys, hvalues⟩ hd (fun e he => (hents e he).1)
    (by omega) hmax, zero_notMem_confArray fun e he => (hents e (hmem e he)).1⟩

end RedisImpl
