import RedisImpl.Cmd.Dispatch
import RedisImpl.Lib.Sys

/-!
# One reply for each request

`oneReply_iff`: a reply is one value, except for ECHO with several arguments or with arguments
that it prints wrongly, for SET when the store has no room, and for GET and SET with GET when the
value has a NUL in it.
-/

namespace RedisImpl

open Node SimpleMap
open Resp (OneValue Sequence sequence_zero sequence_encode sequence_head oneValue_encode
  oneValue_cstr)

/-! ## The states of the server -/

/-- The server between requests, whatever is requested and whichever allocations fail. -/
def requests : Sys CmdParserArgs (List Node) where
  init args := args.sm = SimpleMap.create ∧ Configured args.configDict
  step node args args' := ∃ lc now ra rtn, parseCommand lc now ra args node = .ok (rtn, args')

/-- The store is a map, or `set` has lost its keys. -/
def Sound (sm : Store) : Prop :=
  sm.keys = none ∨ ∃ es, Stores KeyNode.id sm es ∧ sm.capacity < 2 ^ 31

section Sound

variable {sm sm' : Store}

theorem Sound.set (h : Sound sm) (ra : Realloc) (kvp : KeyValuePair KeyNode ValueNode) :
    Sound (sm.set ra kvp compare).2.1 := by
  rcases h with hk | ⟨es, hst, hc⟩
  · left
    simp only [SimpleMap.set, SimpleMap.find, hk]
  · rw [compare_eq_cmpBy]
    cases hs : sm.set ra kvp (cmpBy KeyNode.id) with
    | mk rtn rest =>
      obtain ⟨sm', kvp'⟩ := rest
      by_cases hr : rtn = .errorSetSmRtn
      · subst hr
        rcases hst.set_failed hc hs with ⟨rfl, -⟩ | ⟨rfl, -⟩
        · exact .inl rfl
        · exact .inr ⟨es, hst, hc⟩
      · have hok := set_ok (by rw [hs]; exact hr)
        rw [hs] at hok
        rcases hst.set_cases hc kvp with ⟨sm₁, hst₁, hc₁, hset⟩ | ⟨-, -, hset⟩
        · rw [hset] at hok
          cases hl : Keyed.lookup (ident KeyNode.id) es (KeyNode.id kvp.key) with
          | none =>
            rw [hl] at hok
            cases hok
            exact .inr ⟨_, hst₁, hc₁⟩
          | some e =>
            rw [hl] at hok
            cases hok
            exact .inr ⟨_, hst₁, hc₁⟩
        · rw [hset] at hok
          cases hok
          exact absurd rfl hr

theorem Sound.removeKey (h : Sound sm) (key : KeyNode) : Sound (sm.removeKey key compare).2.1 := by
  rcases h with hk | ⟨es, hst, hc⟩
  · left
    simp only [SimpleMap.removeKey, hk]
  · obtain ⟨sm', hst', hc', hrm⟩ := hst.removeKey_eq key
    rw [compare_eq_cmpBy, hrm]
    cases Keyed.lookup (ident KeyNode.id) es (KeyNode.id key) with
    | none => exact .inr ⟨_, hst', hc' ▸ hc⟩
    | some e => exact .inr ⟨_, hst', hc' ▸ hc⟩

theorem Sound.wrote {ra : Realloc} (h : Sound sm) (hw : Wrote ra sm sm') : Sound sm' := by
  rcases hw with rfl | ⟨kvp, rfl⟩
  · exact h
  · exact h.set ra kvp

theorem Sound.handleGetCmd (h : Sound sm) (lc : Libc) (now : Timespec) (node : List Node) :
    Sound (handleGetCmd lc now node sm).2 := by
  have heffect := handleGetCmd_effect lc now node sm
  generalize RedisImpl.handleGetCmd lc now node sm = x at heffect
  cases heffect with
  | refused => exact h
  | kept => exact h
  | removed key => exact h.removeKey key
  | failed key => exact h.removeKey key

end Sound

/-! ## The invariant -/

structure CmdParserArgs.Sound (args : CmdParserArgs) : Prop where
  sm : RedisImpl.Sound args.sm
  configDict : Configured args.configDict

theorem CmdParserArgs.Sound.runRedisCmd {args args' : CmdParserArgs} (h : args.Sound) {lc : Libc}
    {now : Timespec} {ra : Realloc} {cmd : RedisCommand} {next : List Node} {rtn : Option Bytes}
    (hrun : runRedisCmd lc now ra args cmd next = .ok (rtn, args')) : args'.Sound := by
  cases cmd with
  | nullCmd =>
    cases hrun
    exact h
  | echo =>
    rw [(map_pair_eq_ok hrun).2]
    exact h
  | config =>
    rw [(map_pair_eq_ok hrun).2]
    exact h
  | set =>
    cases hrun
    exact ⟨h.sm.wrote (handleSetCmd_wrote now ra next args.sm), h.configDict⟩
  | get =>
    cases hrun
    exact ⟨h.sm.handleGetCmd lc now next, h.configDict⟩

theorem requests_sound : requests.Inductive CmdParserArgs.Sound where
  init args h := ⟨.inr ⟨[], h.1 ▸ stores_create, by rw [h.1]; decide⟩, h.2⟩
  step node args args' h := by
    rintro ⟨lc, now, ra, rtn, hrun⟩
    rw [parseCommand_eq] at hrun
    unfold runAt at hrun
    split at hrun
    · cases hrun
      exact h
    · split at hrun
      · exact h.runRedisCmd hrun
      · cases hrun
        exact h

/-! ## One value -/

theorem oneValue_bulkString (v : Bytes) : OneValue (bulkString v) :=
  bulkString_eq_encode v ▸ oneValue_encode (.bulk v)

theorem IsReply.oneValue {r : Bytes} (h : IsReply r) : OneValue r := by
  rcases h with rfl | rfl | ⟨v, rfl⟩
  · exact oneValue_encode (.simple (ascii "OK") (by decide))
  · exact oneValue_encode .nil
  · exact oneValue_bulkString v

theorem not_oneValue_zeros : ¬ OneValue zeros := by
  intro h
  exact absurd (sequence_head (c := 0) h) (by decide)

/-- As a C string the zeroed buffer is empty. -/
theorem not_oneValue_cstr_zeros : ¬ OneValue (cstr zeros) := Resp.not_sequence_nil 0

theorem oneValue_cstr_bulkString (v : Bytes) : OneValue (cstr (bulkString v)) ↔ 0 ∉ v :=
  (oneValue_cstr (oneValue_bulkString v)).trans (not_congr zero_mem_bulkString)

/-- A chain is one value if it is one node. -/
theorem oneValue_encodeList {ns : List Node} : OneValue (encodeList ns) ↔ ns.length = 1 := by
  cases ns with
  | nil =>
    refine iff_of_false (Resp.not_sequence_nil 0) (by simp)
  | cons n ns =>
    rw [encodeList, OneValue, sequence_encode, sequence_zero]
    cases ns with
    | nil => simp [encodeList]
    | cons m ns =>
      have := encodeList_ne_nil (List.cons_ne_nil m ns)
      refine iff_of_false ?_ (by simp)
      intro h
      rw [h] at this
      exact absurd this (by decide)

theorem echo_oneValue_iff {args : List Node} {b : Bytes} (h : Echoed 0 args (some b)) :
    OneValue b ↔ args.length = 1 ∧ clean args true = true := by
  cases hc : clean args true with
  | false => exact iff_of_false (h.not_values hc 1) (by simp)
  | true =>
    rw [h.eq_encodeList hc, oneValue_encodeList]
    simp

/-! ## The command of a request -/

section Forall

variable {P : Node → Prop} {PList : List Node → Prop}

mutual

theorem firstNode_forall (hcons : ∀ n next, PList (n :: next) → P n ∧ PList next)
    (harray : ∀ size els, P (.array size els) → PList els) {n : Node} {next rest : List Node}
    {depth d : Nat} {name : Bytes} (hn : P n) (hnext : PList next)
    (h : n.firstNode next depth = some (d, name, rest)) : PList rest := by
  cases n with
  | bulk content =>
    cases h
    exact hnext
  | array size els => exact firstBulk_forall hcons harray (harray size els hn) h

/-- What holds of every node of a tree holds of the arguments of its command. -/
theorem firstBulk_forall (hcons : ∀ n next, PList (n :: next) → P n ∧ PList next)
    (harray : ∀ size els, P (.array size els) → PList els) {ns rest : List Node}
    {depth d : Nat} {name : Bytes} (hns : PList ns)
    (h : firstBulk ns depth = some (d, name, rest)) : PList rest := by
  cases ns with
  | nil => cases h
  | cons n next =>
    obtain ⟨hn, hnext⟩ := hcons n next hns
    exact firstNode_forall hcons harray hn hnext h

end

end Forall

theorem firstBulk_request {ns rest : List Node} {depth d : Nat} {name : Bytes}
    (hr : RequestList ns) (h : firstBulk ns depth = some (d, name, rest)) : RequestList rest :=
  firstBulk_forall (fun _ _ h => h) (fun _ _ h => h.2.2.2) hr h

theorem firstBulk_nulFree {ns rest : List Node} {depth d : Nat} {name : Bytes}
    (hz : NulFreeList ns) (h : firstBulk ns depth = some (d, name, rest)) : NulFreeList rest :=
  firstBulk_forall (fun _ _ h => h) (fun _ _ h => h) hz h

/-- The request is answered with one value, as a C string, or with NULL. -/
def OneReply (lc : Libc) (now : Timespec) (ra : Realloc) (args : CmdParserArgs) (node : Node) :
    Prop :=
  ∀ r args', parseCommand lc now ra args [node] = .ok (some r, args') → OneValue (cstr r)

/-- `set` of the key `k` fails. -/
def SetFails (ra : Realloc) (sm : Store) (k : Bytes) : Prop :=
  executeSetCheck sm = true ∧ entryAt sm k = none ∧ NoRoom ra sm

/-- The arguments of ECHO that are not printed as one value. -/
def SpoiltEcho (next : List Node) : Prop :=
  next ≠ [] ∧ (encodeList next).length < 2 ^ 31 - 1 ∧ ¬ (next.length = 1 ∧ clean next true = true)

/-- The arguments of a SET without NX, XX and GET, of a key that the store has no room for. -/
def SpoiltSet (ra : Realloc) (sm : Store) (next : List Node) : Prop :=
  ∃ c : SetCommand, next = c.args ∧ c.Plain ∧ c.key ≠ [] ∧ c.value ≠ [] ∧ SetFails ra sm c.key

/-- The value of the pair has a NUL in it. -/
def HasNul (kvp : KeyValuePair KeyNode ValueNode) : Prop :=
  kvp.value.dtype = .bulkStr ∧ 0 ∈ kvp.value.content

/-- The arguments of a SET with GET, of a key with such a value. -/
def SpoiltOld (sm : Store) (next : List Node) : Prop :=
  ∃ (c : SetCommand) (kvp : KeyValuePair KeyNode ValueNode), next = c.args ∧ c.Runs ∧
    c.get.isSome = true ∧ entryAt sm c.key = some kvp ∧ HasNul kvp

/-- The argument of a GET, of a key with such a value that has not expired. -/
def SpoiltGet (lc : Libc) (now : Timespec) (sm : Store) (next : List Node) : Prop :=
  ∃ k kvp, next = [.bulk k] ∧ k ≠ [] ∧ entryAt sm k = some kvp ∧
    hasKeyExpired lc ⟨k, now, 0, 0⟩ kvp.key = false ∧ HasNul kvp

/-- The command and its arguments are one of these. -/
def SpoiltCmd (lc : Libc) (now : Timespec) (ra : Realloc) (sm : Store) (cmd : RedisCommand)
    (next : List Node) : Prop :=
  match cmd with
  | .echo => SpoiltEcho next
  | .set => SpoiltSet ra sm next ∨ SpoiltOld sm next
  | .get => SpoiltGet lc now sm next
  | _ => False

/-- The request has such a command. -/
def Spoilt (lc : Libc) (now : Timespec) (ra : Realloc) (args : CmdParserArgs) (node : Node) :
    Prop :=
  ∃ depth name next, firstBulk [node] 0 = some (depth, name, next) ∧ depth % 256 = 1 ∧
    SpoiltCmd lc now ra args.sm (commandNamed name) next

section OneReply

variable {lc : Libc} {now : Timespec} {ra : Realloc} {sm : Store} {next : List Node}

theorem echo_oneReply (hr : RequestList next) (hz : NulFreeList next) :
    (∀ b, handleEchoCmd next = .ok (some b) → OneValue (cstr b)) ↔ ¬ SpoiltEcho next := by
  by_cases hl : (encodeList next).length < 2 ^ 31 - 1
  · obtain ⟨rtn, hrun, he⟩ := handleEchoCmd_ok hr hz hl
    cases rtn with
    | none =>
      have hnil := he.null_iff.mp rfl
      refine iff_of_true ?_ fun h => h.1 hnil
      intro b hb
      rw [hrun] at hb
      cases hb
    | some b =>
      have hne : next ≠ [] := fun h0 => absurd (he.null_iff.mpr h0) (Option.some_ne_none b)
      have hone : (∀ b', handleEchoCmd next = .ok (some b') → OneValue (cstr b')) ↔ OneValue b := by
        rw [hrun]
        simp [cstr_eq_self (he.nulFree b rfl)]
      rw [hone, echo_oneValue_iff he]
      simp only [SpoiltEcho, hne, hl, ne_eq, not_false_eq_true, true_and, not_not]
  · rw [handleEchoCmd_fault hr hz hl]
    exact iff_of_true (by simp) fun h => hl h.2.1

theorem get_oneReply :
    (∀ r, (handleGetCmd lc now next sm).1 = some r → OneValue (cstr r)) ↔
      ¬ SpoiltGet lc now sm next := by
  constructor
  · rintro hone ⟨k, kvp, rfl, hk, he, hexp, hd, hz⟩
    have hquote := congrArg Prod.fst (handleGetCmd_quote hk he hexp hd)
    exact (oneValue_cstr_bulkString _).mp (hone _ hquote) hz
  · intro hs r hr
    rcases handleGetCmd_reply hr with rfl | ⟨k, kvp, hnext, hk, he, hexp, hd, rfl⟩
    · exact (oneValue_cstr isReply_nil.oneValue).mpr (by decide)
    · exact (oneValue_cstr_bulkString _).mpr fun hz => hs ⟨k, kvp, hnext, hk, he, hexp, hd, hz⟩

/-- `set` fails exactly if it has to and cannot make room. -/
theorem Sound.set_fails (h : Sound sm) {key : KeyNode} {value : ValueNode} {k : Bytes}
    (hk : key.content = k) (hcheck : executeSetCheck sm = true) :
    (sm.set ra ⟨key, value⟩ compare).1 = .errorSetSmRtn ↔ SetFails ra sm k := by
  rcases h with hnone | ⟨es, hst, -⟩
  · simp [executeSetCheck, hnone] at hcheck
  · subst hk
    rw [SetFails, ← get_eq_entryAt sm key, compare_eq_cmpBy, hst.set_fails_iff]
    simp [hcheck]

theorem SpoiltSet.reply (h : Sound sm) (hs : SpoiltSet ra sm next) (now : Timespec) :
    (handleSetCmd now ra next sm).1 = some zeros := by
  obtain ⟨c, rfl, hp, hk, hv, hf⟩ := hs
  rw [handleSetCmd_plain hp hk hv, executeSetBasic_eq, if_pos hf.1,
    if_pos ((h.set_fails rfl hf.1).mpr hf)]

/-- Any other reply to SET is one value. -/
theorem handleSetCmd_reply (h : Sound sm) {r : Bytes}
    (hr : (handleSetCmd now ra next sm).1 = some r) : OneValue r ∨ SpoiltSet ra sm next := by
  rcases handleSetCmd_cases next with ⟨c, rfl, hc⟩ | hnull
  · by_cases hp : c.Plain
    · rw [handleSetCmd_plain hp hc.2.1 hc.2.2, executeSetBasic_eq] at hr
      split at hr
      · rename_i hcheck
        cases hr
        split
        · rename_i hfail
          exact .inr ⟨c, rfl, hp, hc.2.1, hc.2.2, (h.set_fails rfl hcheck).mp hfail⟩
        · exact .inl (IsReply.oneValue (.inl rfl))
      · cases hr
    · exact .inl ((handleSetCmd_effect hc hp now ra sm).isReply hr).oneValue
  · rw [hnull] at hr
    cases hr

theorem zero_mem_oldValueReply {old : Option (KeyValuePair KeyNode ValueNode)} :
    0 ∈ oldValueReply old ↔ ∃ kvp, old = some kvp ∧ HasNul kvp := by
  cases old with
  | none => exact iff_of_false (by decide) (by simp)
  | some kvp =>
    simp only [oldValueReply, Option.some.injEq, exists_eq_left', HasNul]
    split
    · rename_i hd
      simp [hd, keyOrValueNodeToString, zero_mem_bulkString]
    · rename_i hd
      exact iff_of_false (by decide) fun h => hd h.1

/-- SET with GET of a key with such a value. -/
theorem SpoiltOld.reply (h : Sound sm) (hs : SpoiltOld sm next) (now : Timespec) (ra : Realloc) :
    ∃ v, 0 ∈ v ∧ (handleSetCmd now ra next sm).1 = some (bulkString v) := by
  obtain ⟨c, kvp, rfl, hc, hget, he, hd, hz⟩ := hs
  rcases h with hnone | ⟨es, hst, hcap⟩
  · rw [entryAt, SimpleMap.get, SimpleMap.find, hnone] at he
    cases he
  · refine ⟨kvp.value.content, hz, ?_⟩
    rw [(handleSetCmd_old hst hcap hc hget now ra).2 (by rw [he]; rfl), he]
    simp [oldValueReply, hd, keyOrValueNodeToString]

/-- A reply to SET has a NUL in it only then. -/
theorem handleSetCmd_zero_mem (h : Sound sm) {r : Bytes} (hz : 0 ∈ r) (hne : r ≠ zeros)
    (hr : (handleSetCmd now ra next sm).1 = some r) : SpoiltOld sm next := by
  rcases handleSetCmd_cases next with ⟨c, rfl, hc⟩ | hnull
  · cases hget : c.get with
    | none =>
      rcases handleSetCmd_noGet hc hget hr with rfl | rfl | rfl
      · exact absurd hz (by decide)
      · exact absurd hz (by decide)
      · exact absurd rfl hne
    | some g =>
      have hsome : c.get.isSome = true := by rw [hget]; rfl
      rcases h with hnone | ⟨es, hst, hcap⟩
      · have hcheck : executeSetCheck sm = false := by simp [executeSetCheck, hnone]
        rw [handleSetCmd_unchecked hcheck] at hr
        cases hr
      · have hold := (handleSetCmd_old hst hcap hc hsome now ra).1 r hr
        subst hold
        obtain ⟨kvp, he, hnul⟩ := zero_mem_oldValueReply.mp hz
        exact ⟨c, kvp, rfl, hc, hsome, he, hnul⟩
  · rw [hnull] at hr
    cases hr

theorem set_oneReply (h : Sound sm) (now : Timespec) :
    (∀ r, (handleSetCmd now ra next sm).1 = some r → OneValue (cstr r)) ↔
      ¬ (SpoiltSet ra sm next ∨ SpoiltOld sm next) := by
  constructor
  · rintro hone (hs | hs)
    · exact not_oneValue_cstr_zeros (hone zeros (hs.reply h now))
    · obtain ⟨v, hz, hr⟩ := hs.reply h now ra
      exact (oneValue_cstr_bulkString v).mp (hone _ hr) hz
  · intro hs r hr
    have hone := (handleSetCmd_reply h hr).resolve_right fun hset => hs (.inl hset)
    refine (oneValue_cstr hone).mpr fun hz => hs (.inr (handleSetCmd_zero_mem h hz ?_ hr))
    rintro rfl
    exact not_oneValue_zeros hone

theorem handleConfCmd_oneValue {dict : ConfigDict} (h : Configured dict) {r : Bytes}
    (hr : handleConfCmd lc next dict = .ok (some r)) : OneValue r ∧ 0 ∉ r := by
  match next with
  | [] => cases hr
  | .array _ _ :: _ => cases hr
  | .bulk w :: rest =>
    rw [handleConfCmd_eq w rest h] at hr
    split at hr
    · by_cases hne : rest = []
      · subst hne
        cases hr
      · obtain ⟨es, hget, hz⟩ := h.handleConfGet_eq lc hne
        rw [hget] at hr
        cases hr
        exact ⟨oneValue_encode _, hz⟩
    · cases hr

/-- The replies of a command are one value, but for these. -/
theorem runRedisCmd_oneReply {args : CmdParserArgs} (h : args.Sound) (hr : RequestList next)
    (hz : NulFreeList next) (cmd : RedisCommand) :
    (∀ r args', runRedisCmd lc now ra args cmd next = .ok (some r, args') → OneValue (cstr r)) ↔
      ¬ SpoiltCmd lc now ra args.sm cmd next := by
  cases cmd with
  | nullCmd => exact iff_of_true (by simp [runRedisCmd]) id
  | echo =>
    refine Iff.trans ⟨fun hone b hb => ?_, fun hone r args' hrun => ?_⟩ (echo_oneReply hr hz)
    · exact hone b args (by rw [runRedisCmd, hb]; rfl)
    · exact hone r (map_pair_eq_ok hrun).1
  | set =>
    refine Iff.trans ⟨fun hone r hset => ?_, fun hone r args' hrun => ?_⟩ (set_oneReply h.sm now)
    · refine hone r { args with sm := (handleSetCmd now ra next args.sm).2 } ?_
      rw [← hset]
      rfl
    · exact hone r (congrArg Prod.fst (Except.ok.inj hrun))
  | get =>
    refine Iff.trans ⟨fun hone r hget => ?_, fun hone r args' hrun => ?_⟩ get_oneReply
    · refine hone r { args with sm := (handleGetCmd lc now next args.sm).2 } ?_
      rw [← hget]
      rfl
    · exact hone r (congrArg Prod.fst (Except.ok.inj hrun))
  | config =>
    refine iff_of_true ?_ id
    intro r args' hrun
    obtain ⟨hone, hzero⟩ := handleConfCmd_oneValue h.configDict (map_pair_eq_ok hrun).1
    exact (oneValue_cstr hone).mpr hzero

/-- A reply to a well-formed request is one value exactly if it is not a reply to an ECHO, a SET or a
GET of these. -/
theorem oneReply_iff {args : CmdParserArgs} (h : requests.Reach args) {node : Node}
    (hr : node.Request) (hz : node.NulFree) (lc : Libc) (now : Timespec) (ra : Realloc) :
    OneReply lc now ra args node ↔ ¬ Spoilt lc now ra args node := by
  unfold OneReply Spoilt
  simp only [parseCommand_eq]
  cases hp : firstBulk [node] 0 with
  | none => exact iff_of_true (by simp [runAt]) (by simp)
  | some place =>
    obtain ⟨depth, name, next⟩ := place
    have hr' : RequestList next := firstBulk_request (show RequestList [node] from ⟨hr, trivial⟩) hp
    have hz' : NulFreeList next := firstBulk_nulFree (show NulFreeList [node] from ⟨hz, trivial⟩) hp
    simp only [runAt_some]
    by_cases hd : depth % 256 = 1
    · simp only [hd, if_true]
      rw [runRedisCmd_oneReply (requests_sound.reach h) hr' hz', findRedisCmd_eq]
      refine not_congr ⟨fun hc => ⟨depth, name, next, rfl, hd, hc⟩, ?_⟩
      rintro ⟨_, _, _, ⟨⟩, -, hc⟩
      exact hc
    · simp only [hd, if_false]
      refine iff_of_true (by simp) ?_
      rintro ⟨_, _, _, ⟨⟩, hd', -⟩
      exact hd hd'

end OneReply

/-- A request of bulk strings. -/
def request (words : List String) : Node :=
  .array words.length (words.map fun s => .bulk (ascii s))

/-- `ECHO a b`. -/
theorem oneReply_iff_echo :
    OneReply .exact ⟨0, 0⟩ .ok initialArgs (request ["ECHO", "a", "b"]) ↔
      ¬ Spoilt .exact ⟨0, 0⟩ .ok initialArgs (request ["ECHO", "a", "b"]) :=
  oneReply_iff (.init ⟨rfl, configured_initialArgs⟩)
    (by simp [request, Node.Request, RequestList, ascii])
    (by simp [request, NulFree, NulFreeList]; decide) .exact ⟨0, 0⟩ .ok

/-- The server after `SET a v`: the one slot of the store is taken. -/
def fullArgs : CmdParserArgs :=
  { initialArgs with
    sm := ⟨some [some ⟨ascii "a", ⟨0, 0⟩, 0, 0⟩], some [some ⟨ascii "v", .bulkStr⟩], 1, 0⟩ }

/-- `SET b v` when the store cannot grow: the reply is the empty C string. -/
theorem fullStore_not_oneReply :
    requests.Reach fullArgs ∧ (request ["SET", "b", "v"]).Request ∧
      (request ["SET", "b", "v"]).NulFree ∧
      ¬ OneReply .exact ⟨0, 0⟩ ⟨false, true, true⟩ fullArgs (request ["SET", "b", "v"]) := by
  refine ⟨.step [request ["SET", "a", "v"]] (.init ⟨rfl, configured_initialArgs⟩)
    ⟨.exact, ⟨0, 0⟩, .ok, some ok, rfl⟩, ?_, ?_, ?_⟩
  · simp [request, Node.Request, RequestList, ascii]
  · simp [request, NulFree, NulFreeList]
    decide
  · intro h
    exact not_oneValue_cstr_zeros (h zeros fullArgs rfl)

end RedisImpl
