import RedisImpl.Cmd.SetCommand

/-!
# The reference map

What GET and SET are for: a map from keys to entries. `RefMap.get` and `RefMap.set` say what the
commands answer and how they change the map. `Holds sm m`: the store `sm` holds exactly the entries
of the map `m`.

* `Holds.get`, `Holds.set`, `Holds.removeKey`: the store's operations under `Holds`.
* `Holds.handleSetCmd_supported`: SET does what `RefMap.set` says, when its combination of options
  has an executor (`SetCommand.Supported`); `handleSetCmd_unsupported`, `handleSetCmd_empty`:
  otherwise it returns NULL and leaves the store alone.
* `Holds.handleGetCmd_eq`: GET answers the value held, or nil after the key has expired, and then
  the key is gone.
* `Holds.step`: every command on the store is `RefMap.step` on the map that the store holds.
-/

namespace RedisImpl

/-- What a key holds: the value, the limits on its age (0: none), the time it was set. -/
structure Entry where
  value : Bytes
  ex : BitVec 32
  px : BitVec 32
  since : Timespec
  deriving DecidableEq

/-- A map from keys to entries. -/
abbrev RefMap := Bytes → Option Entry

/-- The nodes that stand for an entry in the store. -/
def Entry.nodes (k : Bytes) (e : Entry) : KeyNode × ValueNode :=
  (⟨k, e.since, e.ex, e.px⟩, ⟨e.value, .bulkStr⟩)

/-- Whether an entry has expired. -/
def Entry.expired (lc : Libc) (now : Timespec) (e : Entry) : Bool :=
  hasKeyExpired lc ⟨[], now, 0, 0⟩ ⟨[], e.since, e.ex, e.px⟩

/-- The answer with the value of an entry. -/
def valueReply : Option Entry → Bytes
  | none => nil
  | some e => bulkString e.value

/-- The number of an expiry option, as an `unsigned int`. -/
def timeLimit (ds : Digits) : BitVec 32 := BitVec.ofNat 32 (value ds)

theorem toNat_timeLimit {ds : Digits} (h : value ds < 2 ^ 32) :
    (timeLimit ds).toNat = value ds := by
  rw [timeLimit, BitVec.toNat_ofNat, Nat.mod_eq_of_lt h]

namespace SetCommand

/-- The entry that the command stores. -/
def entry (c : SetCommand) (now : Timespec) : Entry :=
  match c.time with
  | none => ⟨c.value, 0, 0, now⟩
  | some (w, ds) =>
    match getOptionType w with
    | .ex | .exat => ⟨c.value, timeLimit ds, 0, now⟩
    | _ => ⟨c.value, 0, timeLimit ds, now⟩

/-- Whether the command writes: NX only if the key is absent, XX only if it is present. -/
def acts (c : SetCommand) (old : Option Entry) : Bool :=
  match c.nxxx with
  | none => true
  | some w => if getOptionType w = .nx then old.isNone else old.isSome

/-- The answer of the command. -/
def reply (c : SetCommand) (old : Option Entry) : Bytes :=
  if c.get.isSome then valueReply old else if c.acts old then ok else nil

/-- The combinations of options that have an executor: an expiry option stands alone. -/
def Supported (c : SetCommand) : Prop := c.time.isSome → c.nxxx = none ∧ c.get = none

instance (c : SetCommand) : Decidable c.Supported :=
  inferInstanceAs (Decidable (c.time.isSome → c.nxxx = none ∧ c.get = none))

end SetCommand

namespace RefMap

/-- The entry of a key, if it has not expired. -/
def live (lc : Libc) (now : Timespec) (m : RefMap) (k : Bytes) : Option Entry :=
  (m k).filter fun e => !e.expired lc now

/-- GET, on keys that have not expired. -/
def get (m : RefMap) (k : Bytes) : Bytes := valueReply (m k)

/-- SET. -/
def set (now : Timespec) (c : SetCommand) (m : RefMap) : Bytes × RefMap :=
  (c.reply (m c.key),
    if c.acts (m c.key) then Function.update m c.key (some (c.entry now)) else m)

end RefMap

/-- The store holds exactly the entries of the map. -/
def Holds (sm : Store) (m : RefMap) : Prop :=
  ∃ es, SimpleMap.Stores KeyNode.id sm es ∧
    ∀ k, Keyed.lookup (SimpleMap.ident KeyNode.id) es k = (m k).map (Entry.nodes k)

/-- The store has room for another key: `capacity` can double. -/
def Room (sm : Store) : Prop := sm.top + 1 < 2 ^ 30

theorem holds_create : Holds SimpleMap.create (fun _ => none) :=
  ⟨[], SimpleMap.stores_create, fun _ => rfl⟩

/-! ## The operations of the store -/

section Operations

variable {sm : Store} {m : RefMap}

theorem Holds.check (h : Holds sm m) : executeSetCheck sm = true := by
  obtain ⟨es, hst, -⟩ := h
  exact executeSetCheck_stores hst

/-- `get` finds the nodes of the key's entry. -/
theorem Holds.get (h : Holds sm m) (key : KeyNode) :
    sm.get key compare =
      (m key.content).map fun e => ⟨(e.nodes key.content).1, (e.nodes key.content).2⟩ := by
  obtain ⟨es, hst, hm⟩ := h
  rw [compare_eq_cmpBy, hst.get_eq, hm, Option.map_map]
  rfl

/-- What `set` returns and leaves in the caller's pair. -/
def setResult (k : Bytes) (old : Option Entry) (kvp : KeyValuePair KeyNode ValueNode) :
    SetRtn × KeyValuePair KeyNode ValueNode :=
  match old with
  | none => (.sucessSet, kvp)
  | some e => (.sucessUpgrade, ⟨(e.nodes k).1, (e.nodes k).2⟩)

/-- `set` stores the entry. -/
theorem Holds.set (h : Holds sm m) (hr : Room sm) (k : Bytes) (e : Entry) :
    ∃ sm', Holds sm' (Function.update m k (some e)) ∧
      sm.set .ok ⟨(e.nodes k).1, (e.nodes k).2⟩ compare =
        ((setResult k (m k) ⟨(e.nodes k).1, (e.nodes k).2⟩).1, sm',
          (setResult k (m k) ⟨(e.nodes k).1, (e.nodes k).2⟩).2) := by
  obtain ⟨es, hst, hm⟩ := h
  have hlen : es.length < 2 ^ 30 := by
    have := hst.top
    unfold Room at hr
    omega
  obtain ⟨sm', hst', hset⟩ := hst.set_eq hlen ⟨(e.nodes k).1, (e.nodes k).2⟩
  refine ⟨sm', ⟨_, hst', fun k' => ?_⟩, ?_⟩
  · rw [Keyed.lookup_put hst.distinct, hm]
    by_cases hk : k' = k
    · subst hk
      simp [Entry.nodes]
    · have : k' ≠ SimpleMap.ident KeyNode.id ((e.nodes k).1, (e.nodes k).2) := hk
      rw [if_neg this, Function.update_of_ne hk]
  · rw [compare_eq_cmpBy, hset]
    have hlk := hm k
    cases hk : m k with
    | none =>
      rw [hk] at hlk
      have : Keyed.lookup (SimpleMap.ident KeyNode.id) es (KeyNode.id (e.nodes k).1) = none := hlk
      rw [this]
      rfl
    | some old =>
      rw [hk] at hlk
      have : Keyed.lookup (SimpleMap.ident KeyNode.id) es (KeyNode.id (e.nodes k).1) =
        some (old.nodes k) := hlk
      rw [this]
      rfl

/-- `remove_key` removes the entry of the key. -/
theorem Holds.removeKey (h : Holds sm m) (key : KeyNode) :
    ∃ sm', Holds sm' (Function.update m key.content none) ∧ sm'.top ≤ sm.top ∧
      sm.removeKey key compare =
        match m key.content with
        | none => (.removeKeyNotFound, sm', none)
        | some e =>
          (.removeSuccess, sm', some ⟨(e.nodes key.content).1, (e.nodes key.content).2⟩) := by
  obtain ⟨es, hst, hm⟩ := h
  obtain ⟨sm', hst', -, hrm⟩ := hst.removeKey_eq key
  refine ⟨sm', ⟨_, hst', fun k' => ?_⟩, ?_, ?_⟩
  · rw [Keyed.lookup_remove hst.distinct, hm]
    by_cases hk : k' = key.content
    · subst hk
      simp
    · rw [if_neg hk, Function.update_of_ne hk]
  · have := Keyed.length_remove_le (SimpleMap.ident KeyNode.id) es (KeyNode.id key)
    have := hst.top
    have := hst'.top
    omega
  · rw [compare_eq_cmpBy, hrm, hm]
    cases m key.content with
    | none => rfl
    | some e => rfl

end Operations

/-! ## The slots of the parsed command -/

namespace SetCommand

variable (c : SetCommand)

@[simp] theorem parsedCmd_key : c.parsedCmd 5 = some (.bulk c.key) := by
  obtain ⟨k, v, _ | w, _ | g, _ | ⟨t, ds⟩⟩ := c <;> rfl

@[simp] theorem parsedCmd_value : c.parsedCmd 4 = some (.bulk c.value) := by
  obtain ⟨k, v, _ | w, _ | g, _ | ⟨t, ds⟩⟩ := c <;> rfl

@[simp] theorem parsedCmd_nxxx : c.parsedCmd 3 = c.nxxx.map fun w => .bulk w := by
  obtain ⟨k, v, _ | w, _ | g, _ | ⟨t, ds⟩⟩ := c <;> rfl

@[simp] theorem parsedCmd_get : c.parsedCmd 2 = c.get.map fun w => .bulk w := by
  obtain ⟨k, v, _ | w, _ | g, _ | ⟨t, ds⟩⟩ := c <;> rfl

@[simp] theorem parsedCmd_timeWord : c.parsedCmd 1 = c.time.map fun t => .bulk t.1 := by
  obtain ⟨k, v, _ | w, _ | g, _ | ⟨t, ds⟩⟩ := c <;> rfl

@[simp] theorem parsedCmd_timeDigits : c.parsedCmd 0 = c.time.map fun t => .bulk t.2 := by
  obtain ⟨k, v, _ | w, _ | g, _ | ⟨t, ds⟩⟩ := c <;> rfl

end SetCommand

/-- The pair that `execute_set_cmd` makes of the key and the value. -/
def newPair (c : SetCommand) (now : Timespec) : KeyValuePair KeyNode ValueNode :=
  ⟨⟨c.key, now, 0, 0⟩, ⟨c.value, .bulkStr⟩⟩

/-- The states of the commands are apart, and the two without an executor are none of the five. -/
theorem SetCommand.executor {α : Type} (c : SetCommand) (basic get nxXx nxxxGet exPx parseError : α) :
    (if c.state = SetState.setBasic.val then basic else
      if c.state = SetState.setGet.val then get else
      if c.state = SetState.setNxxx.val then nxXx else
      if c.state = SetState.setNxxxGet.val then nxxxGet else
      if c.state = SetState.setExPxExalPxat.val then exPx else
      parseError) =
      match c.nxxx, c.get, c.time with
      | none, none, none => basic
      | none, some _, none => get
      | some _, none, none => nxXx
      | some _, some _, none => nxxxGet
      | none, none, some _ => exPx
      | _, _, some _ => parseError := by
  obtain ⟨k, v, _ | w, _ | g, _ | t⟩ := c <;>
    simp +decide only [SetCommand.state, Option.isSome_some, Option.isSome_none, if_true, if_false]

/-- Which executor runs. -/
theorem executeSetCmd_eq (now : Timespec) (ra : Realloc) {c : SetCommand} (hk : c.key ≠ [])
    (hv : c.value ≠ []) (sm : Store) :
    executeSetCmd now ra c.state c.parsedCmd sm =
      match c.nxxx, c.get, c.time with
      | none, none, none => executeSetBasic ra sm (newPair c now)
      | none, some _, none => executeSetGet ra sm (newPair c now)
      | some _, none, none => executeSetNxXx ra sm (newPair c now) c.parsedCmd
      | some _, some _, none => executeSetNxxxGet ra sm (newPair c now) c.parsedCmd
      | none, none, some _ => executeSetExPxExatPxat ra sm (newPair c now) c.parsedCmd
      | _, _, some _ => (none, sm) := by
  simp only [executeSetCmd, ParsedCmd.content, SetCommand.parsedCmd_key,
    SetCommand.parsedCmd_value, Option.bind_some, Node.bulkContent_bulk, createKeyNode_of_ne hk,
    createValueNode_of_ne hv]
  exact c.executor _ _ _ _ _ _

/-- An empty key or value is refused. -/
theorem executeSetCmd_empty (now : Timespec) (ra : Realloc) {c : SetCommand}
    (h : c.key = [] ∨ c.value = []) (sm : Store) :
    executeSetCmd now ra c.state c.parsedCmd sm = (none, sm) := by
  simp only [executeSetCmd, ParsedCmd.content, SetCommand.parsedCmd_key,
    SetCommand.parsedCmd_value, Option.bind_some, Node.bulkContent_bulk]
  by_cases hk : c.key = []
  · simp [createKeyNode, hk]
  · rw [createKeyNode_of_ne hk]
    simp [createValueNode, createValueNodeString, h.resolve_left hk]

theorem handleSetCmd_args (now : Timespec) (ra : Realloc) (c : SetCommand) (sm : Store) :
    handleSetCmd now ra c.args sm = executeSetCmd now ra c.state c.parsedCmd sm := by
  rw [handleSetCmd, validateSetCmd_args]

theorem handleSetCmd_empty (now : Timespec) (ra : Realloc) {c : SetCommand}
    (h : c.key = [] ∨ c.value = []) (sm : Store) :
    handleSetCmd now ra c.args sm = (none, sm) := by
  rw [handleSetCmd_args, executeSetCmd_empty now ra h]

/-- An expiry option together with another option has no executor. -/
theorem handleSetCmd_unsupported (now : Timespec) (ra : Realloc) {c : SetCommand}
    (h : ¬ c.Supported) (sm : Store) : handleSetCmd now ra c.args sm = (none, sm) := by
  by_cases he : c.key = [] ∨ c.value = []
  · exact handleSetCmd_empty now ra he sm
  · rw [not_or] at he
    rw [handleSetCmd_args, executeSetCmd_eq now ra he.1 he.2]
    obtain ⟨k, v, _ | w, _ | g, _ | t⟩ := c <;> simp [SetCommand.Supported] at h ⊢

/-! ## The executors -/

theorem getOptionType_nx {w : Bytes} : getOptionType w = .nx ↔ cstr w = ascii "NX" :=
  getOptionType_eq rfl w

theorem getOptionType_xx {w : Bytes} : getOptionType w = .xx ↔ cstr w = ascii "XX" :=
  getOptionType_eq rfl w

/-- `string_to_uint` of the digits of a number. -/
theorem stringToUint_time (ds : Digits) : stringToUint ds = timeLimit ds :=
  stringToUint_digits (List.all_eq_true.mp ds.2.2)

section Executors

variable {sm : Store} {m : RefMap} {now : Timespec} {c : SetCommand}

/-- Without an expiry option the new pair is the entry's. -/
theorem newPair_eq (ht : c.time = none) :
    newPair c now = ⟨((c.entry now).nodes c.key).1, ((c.entry now).nodes c.key).2⟩ := by
  rw [SetCommand.entry, ht]
  rfl

theorem Holds.executeSetBasic (h : Holds sm m) (hr : Room sm) (k : Bytes) (e : Entry) :
    ∃ sm', Holds sm' (Function.update m k (some e)) ∧
      executeSetBasic .ok sm ⟨(e.nodes k).1, (e.nodes k).2⟩ = (some ok, sm') := by
  obtain ⟨sm', h', hset⟩ := h.set hr k e
  refine ⟨sm', h', ?_⟩
  simp only [RedisImpl.executeSetBasic, h.check, Bool.not_true, Bool.false_eq_true, if_false, hset]
  cases m k with
  | none => rfl
  | some old => rfl

theorem Holds.executeSetGet (h : Holds sm m) (hr : Room sm) (k : Bytes) (e : Entry) :
    ∃ sm', Holds sm' (Function.update m k (some e)) ∧
      executeSetGet .ok sm ⟨(e.nodes k).1, (e.nodes k).2⟩ = (some (valueReply (m k)), sm') := by
  obtain ⟨sm', h', hset⟩ := h.set hr k e
  refine ⟨sm', h', ?_⟩
  simp only [RedisImpl.executeSetGet, h.check, Bool.not_true, Bool.false_eq_true, if_false, hset]
  cases m k with
  | none => rfl
  | some old => rfl

/-- NX and XX. -/
theorem Holds.executeSetNxXx (h : Holds sm m) (hr : Room sm) (k : Bytes) (e : Entry)
    {parsedCmd : ParsedCmd} {w : CondWord} (hw : parsedCmd 3 = some (.bulk w)) (acts : Bool)
    (hacts : acts = if getOptionType w = .nx then (m k).isNone else (m k).isSome) :
    ∃ sm', Holds sm' (if acts then Function.update m k (some e) else m) ∧
      executeSetNxXx .ok sm ⟨(e.nodes k).1, (e.nodes k).2⟩ parsedCmd =
        (some (if acts then ok else nil), sm') := by
  obtain ⟨sm', h', hset⟩ := h.set hr k e
  have hc : parsedCmd.content 3 = some w.1 := by rw [ParsedCmd.content, hw]; rfl
  have hget := h.get (e.nodes k).1
  have hkey : (e.nodes k).1.content = k := rfl
  rw [hkey] at hget
  simp only [RedisImpl.executeSetNxXx, h.check, Bool.not_true, Bool.false_eq_true, if_false, hc]
  by_cases hnx : getOptionType w = .nx
  · rw [if_pos hnx] at hacts
    rw [if_pos (getOptionType_nx.mp hnx)]
    cases hk : m k with
    | none =>
      rw [hk] at hget hset hacts
      refine ⟨sm', by rwa [hacts], ?_⟩
      simp only [hget, Option.map_none, hset, hacts]
      rfl
    | some old =>
      rw [hk] at hget hacts
      refine ⟨sm, by rwa [hacts], ?_⟩
      simp only [hget, Option.map_some, hacts]
      rfl
  · have hxx := getOptionType_xx.mp (w.2.resolve_left hnx)
    rw [if_neg hnx] at hacts
    rw [if_neg (fun hn => hnx (getOptionType_nx.mpr hn)), if_pos hxx]
    cases hk : m k with
    | none =>
      rw [hk] at hget hacts
      refine ⟨sm, by rwa [hacts], ?_⟩
      simp only [hget, Option.map_none, hacts]
      rfl
    | some old =>
      rw [hk] at hget hset hacts
      refine ⟨sm', by rwa [hacts], ?_⟩
      simp only [hget, Option.map_some, hset, hacts]
      rfl

/-- The old value that NX GET and XX GET answer. -/
theorem oldValueReply_get (h : Holds sm m) (key : KeyNode) :
    oldValueReply (sm.get key compare) = valueReply (m key.content) := by
  rw [h.get]
  cases m key.content with
  | none => rfl
  | some e => rfl

theorem Holds.executeSetNxxxGet (h : Holds sm m) (hr : Room sm) (k : Bytes) (e : Entry)
    {parsedCmd : ParsedCmd} {w : CondWord} (hw : parsedCmd 3 = some (.bulk w)) (acts : Bool)
    (hacts : acts = if getOptionType w = .nx then (m k).isNone else (m k).isSome) :
    ∃ sm', Holds sm' (if acts then Function.update m k (some e) else m) ∧
      executeSetNxxxGet .ok sm ⟨(e.nodes k).1, (e.nodes k).2⟩ parsedCmd =
        (some (valueReply (m k)), sm') := by
  obtain ⟨sm', h', hx⟩ := h.executeSetNxXx hr k e hw acts hacts
  refine ⟨sm', h', ?_⟩
  have hnn : (parsedCmd 3).isNone = false := by rw [hw]; rfl
  simp only [RedisImpl.executeSetNxxxGet, h.check, hnn, Bool.not_true, Bool.false_eq_true, if_false,
    hx, oldValueReply_get h]
  rfl

/-- The expiry options. -/
theorem Holds.executeSetExPxExatPxat (h : Holds sm m) (hr : Room sm) (now : Timespec)
    {c : SetCommand} (hs : c.time.isSome) :
    ∃ sm', Holds sm' (Function.update m c.key (some (c.entry now))) ∧
      executeSetExPxExatPxat .ok sm (newPair c now) c.parsedCmd = (some ok, sm') := by
  obtain ⟨⟨w, ds⟩, ht⟩ := Option.isSome_iff_exists.mp hs
  obtain ⟨sm', h', hx⟩ := h.executeSetBasic hr c.key (c.entry now)
  refine ⟨sm', h', ?_⟩
  rw [← hx]
  simp only [RedisImpl.executeSetExPxExatPxat, h.check, ParsedCmd.content,
    SetCommand.parsedCmd_timeWord, SetCommand.parsedCmd_timeDigits, ht, Option.map_some,
    Option.bind_some, Node.bulkContent_bulk, stringToUint_time, SetCommand.entry, Bool.not_true,
    Bool.false_eq_true, if_false]
  rcases OptionType.isTime_iff.mp w.2 with hg | hg | hg | hg <;> rw [hg] <;> rfl

/-- SET does what the reference map does. -/
theorem Holds.handleSetCmd_supported (h : Holds sm m) (hr : Room sm) (now : Timespec) {c : SetCommand}
    (hc : c.Supported) (hk : c.key ≠ []) (hv : c.value ≠ []) :
    ∃ sm', Holds sm' (m.set now c).2 ∧
      handleSetCmd now .ok c.args sm = (some (m.set now c).1, sm') := by
  rw [handleSetCmd_args, executeSetCmd_eq now .ok hk hv, RefMap.set, SetCommand.reply]
  cases ht : c.time with
  | some t =>
    obtain ⟨hn, hg⟩ := hc (by rw [ht]; rfl)
    have ha : c.acts (m c.key) = true := by rw [SetCommand.acts, hn]
    simp only [hn, hg, ha, if_true]
    exact h.executeSetExPxExatPxat hr now (by rw [ht]; rfl)
  | none =>
    rw [newPair_eq ht]
    cases hn : c.nxxx with
    | none =>
      have ha : c.acts (m c.key) = true := by rw [SetCommand.acts, hn]
      cases hg : c.get with
      | none =>
        simp only [ha, if_true]
        exact h.executeSetBasic hr c.key (c.entry now)
      | some g =>
        simp only [ha, if_true]
        exact h.executeSetGet hr c.key (c.entry now)
    | some w =>
      have ha : c.acts (m c.key) =
          if getOptionType w = .nx then (m c.key).isNone else (m c.key).isSome := by
        rw [SetCommand.acts, hn]
      have hw : c.parsedCmd 3 = some (.bulk w) := by rw [SetCommand.parsedCmd_nxxx, hn]; rfl
      cases hg : c.get with
      | none => exact h.executeSetNxXx hr c.key (c.entry now) hw _ ha
      | some g => exact h.executeSetNxxxGet hr c.key (c.entry now) hw _ ha

/-- GET answers the value held if it has not expired, and removes it if it has. -/
theorem Holds.handleGetCmd_eq (h : Holds sm m) (lc : Libc) (now : Timespec) {k : Bytes}
    (hk : k ≠ []) :
    ∃ sm', Holds sm' (if (m k).any (·.expired lc now) then Function.update m k none else m) ∧
      sm'.top ≤ sm.top ∧
      handleGetCmd lc now [.bulk k] sm = (some (valueReply (m.live lc now k)), sm') := by
  simp only [handleGetCmd, isCmdValid, createKeyNode_of_ne hk, h.get, RefMap.live]
  cases hm : m k with
  | none => exact ⟨sm, h, Int.le_refl _, rfl⟩
  | some e =>
    have hx : hasKeyExpired lc ⟨k, now, 0, 0⟩ (e.nodes k).1 = e.expired lc now := rfl
    simp only [Option.map_some, hx, Option.any_some, Option.filter_some]
    by_cases he : e.expired lc now = true
    · obtain ⟨sm', h', htop, hrm⟩ := h.removeKey ⟨k, now, 0, 0⟩
      simp only [he, if_true, hrm, hm]
      exact ⟨sm', h', htop, rfl⟩
    · simp only [he]
      exact ⟨sm, h, Int.le_refl _, rfl⟩

end Executors

/-! ## Commands -/

/-- A GET or SET request. -/
inductive Command where
  | get (key : Bytes)
  | set (c : SetCommand)
  deriving DecidableEq

namespace Command

/-- The key that the command is about. -/
def key : Command → Bytes
  | get k => k
  | set c => c.key

/-- A non-empty key, a non-empty value, and a combination of options that has an executor. -/
def Valid : Command → Prop
  | get k => k ≠ []
  | set c => c.key ≠ [] ∧ c.value ≠ [] ∧ c.Supported

instance (cmd : Command) : Decidable cmd.Valid :=
  match cmd with
  | get k => inferInstanceAs (Decidable (k ≠ []))
  | set c => inferInstanceAs (Decidable (c.key ≠ [] ∧ c.value ≠ [] ∧ c.Supported))

/-- The command on the store: `handle_get_cmd` or `handle_set_cmd` on its argument nodes. -/
def exec (lc : Libc) (now : Timespec) (cmd : Command) (sm : Store) : Option Bytes × Store :=
  match cmd with
  | get k => handleGetCmd lc now [.bulk k] sm
  | set c => handleSetCmd now .ok c.args sm

end Command

namespace RefMap

/-- The command on the reference map, on keys that have not expired. -/
def exec (now : Timespec) (cmd : Command) (m : RefMap) : Bytes × RefMap :=
  match cmd with
  | .get k => (m.get k, m)
  | .set c => m.set now c

/-- The command on the reference map, as the handlers do it: a command that is not valid is refused,
and GET drops an expired entry. -/
def step (lc : Libc) (now : Timespec) (cmd : Command) (m : RefMap) : Option Bytes × RefMap :=
  if ¬ cmd.Valid then (none, m) else
  match cmd with
  | .get k =>
    (some (valueReply (m.live lc now k)),
      if (m k).any (·.expired lc now) then Function.update m k none else m)
  | .set c => (some (m.set now c).1, (m.set now c).2)

theorem step_of_unexpired {lc : Libc} {now : Timespec} {cmd : Command} {m : RefMap}
    (hv : cmd.Valid) (hlive : ∀ e, m cmd.key = some e → e.expired lc now = false) :
    m.step lc now cmd = (some (m.exec now cmd).1, (m.exec now cmd).2) := by
  rw [step.eq_def, if_neg (not_not_intro hv)]
  cases cmd with
  | set c => rfl
  | get k =>
    simp only [exec, get, live]
    cases hm : m k with
    | none => rfl
    | some e => simp [Option.filter_some, hlive e hm]

end RefMap

/-- A command on the store does what it does on the map that the store holds. -/
theorem Holds.step {sm : Store} {m : RefMap} (h : Holds sm m) (hr : Room sm) (lc : Libc)
    (now : Timespec) (cmd : Command) :
    ∃ sm', Holds sm' (m.step lc now cmd).2 ∧
      cmd.exec lc now sm = ((m.step lc now cmd).1, sm') := by
  by_cases hv : cmd.Valid
  · rw [RefMap.step.eq_def, if_neg (not_not_intro hv)]
    cases cmd with
    | get k =>
      obtain ⟨sm', h', -, hx⟩ := h.handleGetCmd_eq lc now hv
      exact ⟨sm', h', hx⟩
    | set c => exact h.handleSetCmd_supported hr now hv.2.2 hv.1 hv.2.1
  · rw [RefMap.step.eq_def, if_pos hv]
    refine ⟨sm, h, ?_⟩
    cases cmd with
    | get k =>
      obtain rfl : k = [] := not_not.mp hv
      rfl
    | set c =>
      by_cases he : c.key = [] ∨ c.value = []
      · exact handleSetCmd_empty now .ok he sm
      · rw [not_or] at he
        exact handleSetCmd_unsupported now .ok (fun hc => hv ⟨he.1, he.2, hc⟩) sm

end RedisImpl
