import RedisImpl.Cmd.ConfigGet
import RedisImpl.Cmd.Echo
import RedisImpl.Cmd.Effects

/-!
# `parse_command`

The dispatch of a request to the command it names.

* `parseCommand_eq`: the command is run that stands before the siblings of the first bulk string
  of the tree, if the number of arrays around that string is 1 modulo 256.
* `parseCommand_rejected`: a request that is answered with NULL changes nothing.
* `ignored_iff`: for which trees the nested first string is not taken for a command.
-/

namespace RedisImpl

/-- `RedisCommand`. -/
inductive RedisCommand where
  | nullCmd
  | echo
  | set
  | get
  | config
  deriving DecidableEq

/-- `command_table`, without its end mark. -/
def commandTable : List (Bytes × RedisCommand) :=
  [(ascii "ECHO", .echo), (ascii "SET", .set), (ascii "GET", .get), (ascii "CONFIG", .config)]

/-- `find_redis_cmd`. -/
def findRedisCmd (lc : Libc) (cmd : Bytes) : RedisCommand :=
  match (scanned commandTable).find? fun item => lc.doesTheStringsMatch item.1 cmd with
  | some item => item.2
  | none => .nullCmd

structure CmdParserArgs where
  sm : Store
  configDict : ConfigDict

/-- What `parse_command` returns, and what its arguments point to after it. -/
abbrev ParseRtn := Except Fault (Option Bytes × CmdParserArgs)

/-- The inner switch of `parse_command`, on the command `cmd` and the siblings `next`. -/
def runRedisCmd (lc : Libc) (now : Timespec) (ra : Realloc) (args : CmdParserArgs)
    (cmd : RedisCommand) (next : List Node) : ParseRtn :=
  match cmd with
  | .echo => (handleEchoCmd next).map fun rtn => (rtn, args)
  | .set =>
    let (rtn, sm) := handleSetCmd now ra next args.sm
    .ok (rtn, { args with sm })
  | .get =>
    let (rtn, sm) := handleGetCmd lc now next args.sm
    .ok (rtn, { args with sm })
  | .config => (handleConfCmd lc next args.configDict).map fun rtn => (rtn, args)
  | .nullCmd => .ok (none, args)

section ParseCommand

variable (lc : Libc) (now : Timespec) (ra : Realloc) (args : CmdParserArgs)

mutual

/-- The loop of `parse_command` at the node `gnode`, whose siblings are `next`. -/
def parseNode : Node → List Node → UInt8 → ParseRtn
  | .array _ content, _, firstArray => parseChain content (firstArray + 1)
  | .bulk content, next, firstArray =>
    if firstArray = 1 then runRedisCmd lc now ra args (findRedisCmd lc content) next
    else .ok (none, args)

/-- The loop of `parse_command`: it looks at the first node of a chain. -/
def parseChain : List Node → UInt8 → ParseRtn
  | [], _ => .ok (none, args)
  | gnode :: next, firstArray => parseNode gnode next firstArray

end

/-- `parse_command`. -/
def parseCommand (node : List Node) : ParseRtn := parseChain lc now ra args node 0

end ParseCommand

/-! ## Where the command stands -/

namespace Node

mutual

/-- The bulk string that the first elements lead to, with its siblings `next` and the number of
arrays around it, `depth` of them outside of the node. -/
def firstNode : Node → List Node → Nat → Option (Nat × Bytes × List Node)
  | array _ content, _, depth => firstBulk content (depth + 1)
  | bulk content, next, depth => some (depth, content, next)

def firstBulk : List Node → Nat → Option (Nat × Bytes × List Node)
  | [], _ => none
  | n :: next, depth => n.firstNode next depth

end

end Node

open Node

section ParseCommand

variable (lc : Libc) (now : Timespec) (ra : Realloc) (args : CmdParserArgs)

/-- What `parse_command` does with the place it finds. -/
def runAt (place : Option (Nat × Bytes × List Node)) : ParseRtn :=
  match place with
  | none => .ok (none, args)
  | some (depth, name, next) =>
    if depth % 256 = 1 then runRedisCmd lc now ra args (findRedisCmd lc name) next
    else .ok (none, args)

theorem runAt_some (depth : Nat) (name : Bytes) (next : List Node) :
    runAt lc now ra args (some (depth, name, next)) =
      if depth % 256 = 1 then runRedisCmd lc now ra args (findRedisCmd lc name) next
      else .ok (none, args) := rfl

theorem firstArray_eq_one {depth : Nat} : UInt8.ofNat depth = 1 ↔ depth % 256 = 1 := by
  rw [← UInt8.toNat_inj, UInt8.toNat_ofNat']
  rfl

mutual

theorem parseNode_eq (n : Node) (next : List Node) (depth : Nat) :
    parseNode lc now ra args n next (UInt8.ofNat depth) =
      runAt lc now ra args (n.firstNode next depth) := by
  cases n with
  | bulk content =>
    rw [parseNode, firstNode, runAt]
    simp only [firstArray_eq_one]
  | array size content =>
    rw [parseNode, firstNode, show UInt8.ofNat depth + 1 = UInt8.ofNat (depth + 1) by simp]
    exact parseChain_eq content (depth + 1)

theorem parseChain_eq (ns : List Node) (depth : Nat) :
    parseChain lc now ra args ns (UInt8.ofNat depth) =
      runAt lc now ra args (firstBulk ns depth) := by
  cases ns with
  | nil => rfl
  | cons n next => exact parseNode_eq n next depth

end

theorem parseCommand_eq (node : List Node) :
    parseCommand lc now ra args node = runAt lc now ra args (firstBulk node 0) :=
  parseChain_eq lc now ra args node 0

end ParseCommand

/-! ## The names of the commands -/

/-- The command with a name, in upper or lower case. -/
def commandNamed (name : Bytes) : RedisCommand :=
  if lower (ascii "ECHO") = lower (cstr name) then .echo else
  if lower (ascii "SET") = lower (cstr name) then .set else
  if lower (ascii "GET") = lower (cstr name) then .get else
  if lower (ascii "CONFIG") = lower (cstr name) then .config else
  .nullCmd

theorem findRedisCmd_eq (lc : Libc) (name : Bytes) : findRedisCmd lc name = commandNamed name := by
  rw [findRedisCmd, find_scanned lc commandTable (by simp [commandTable, ascii, isSpecial])]
  unfold commandTable commandNamed
  simp only [List.find?_cons, List.find?_nil]
  split_ifs <;> simp_all

/-! ## Rejected commands -/

theorem map_pair_eq_ok {x : Except Fault (Option Bytes)} {args args' : CmdParserArgs}
    {rtn : Option Bytes} (h : (x.map fun rtn => (rtn, args)) = .ok (rtn, args')) :
    x = .ok rtn ∧ args' = args := by
  cases x with
  | error e => cases h
  | ok r =>
    cases h
    exact ⟨rfl, rfl⟩

theorem runRedisCmd_null {lc : Libc} {now : Timespec} {args args' : CmdParserArgs}
    {es : List (KeyNode × ValueNode)} (hst : SimpleMap.Stores KeyNode.id args.sm es)
    (hc : args.sm.capacity < 2 ^ 31) {cmd : RedisCommand} {next : List Node}
    (h : runRedisCmd lc now .ok args cmd next = .ok (none, args')) : args' = args := by
  cases cmd with
  | nullCmd =>
    cases h
    rfl
  | echo => exact (map_pair_eq_ok h).2
  | config => exact (map_pair_eq_ok h).2
  | set =>
    cases hs : handleSetCmd now .ok next args.sm with
    | mk rtn sm =>
      simp only [runRedisCmd, hs] at h
      cases h
      rw [handleSetCmd_null hst hc hs]
  | get =>
    cases hs : handleGetCmd lc now next args.sm with
    | mk rtn sm =>
      simp only [runRedisCmd, hs] at h
      cases h
      rw [handleGetCmd_null hst hs]

/-- A request that is answered with NULL has changed neither the store nor the config
dictionary. -/
theorem parseCommand_rejected {lc : Libc} {now : Timespec} {args args' : CmdParserArgs}
    {es : List (KeyNode × ValueNode)} (hst : SimpleMap.Stores KeyNode.id args.sm es)
    (hc : args.sm.capacity < 2 ^ 31) {node : List Node}
    (h : parseCommand lc now .ok args node = .ok (none, args')) : args' = args := by
  rw [parseCommand_eq] at h
  unfold runAt at h
  split at h
  · cases h
    rfl
  · split at h
    · exact runRedisCmd_null hst hc h
    · cases h
      rfl

/-- The arguments of `parse_command` in a server that has just started. -/
def initialArgs : CmdParserArgs where
  sm := SimpleMap.create
  configDict := ⟨some [some ⟨ascii "dir", ⟨0, 0⟩, 0, 0⟩, some ⟨ascii "dbfilename", ⟨0, 0⟩, 0, 0⟩],
    some [some (createValueNodeString defaultRedisDir.val .bulkStr),
      some (createValueNodeString defaultRedisRdbfile.val .bulkStr)], 2, 1⟩

theorem configured_initialArgs : Configured initialArgs.configDict :=
  ⟨.ok, ⟨0, 0⟩, ⟨0, 0⟩, none, none, rfl⟩

/-- `SET k v NX EX 10`, which has no executor. -/
theorem parseCommand_rejected_nxEx : ∃ args',
    parseCommand .exact ⟨0, 0⟩ .ok initialArgs
      [.array 6 (["SET", "k", "v", "NX", "EX", "10"].map fun s => .bulk (ascii s))] =
        .ok (none, args') ∧ args' = initialArgs :=
  ⟨_, rfl, parseCommand_rejected SimpleMap.stores_create (by decide)
    (rfl : parseCommand .exact ⟨0, 0⟩ .ok initialArgs
      [.array 6 (["SET", "k", "v", "NX", "EX", "10"].map fun s => .bulk (ascii s))] = _)⟩

/-! ## Nested commands -/

/-- The server carries the command out: ECHO with an argument, SET with options that have an
executor, GET of a key, CONFIG GET with an argument. -/
def IsCommand (name : Bytes) (next : List Node) : Prop :=
  match commandNamed name with
  | .echo => next ≠ []
  | .set => ∃ c : SetCommand, next = c.args ∧ c.Runs
  | .get => ∃ k, next = [.bulk k] ∧ k ≠ []
  | .config =>
    ∃ w rest, next = .bulk w :: rest ∧ lower (ascii "GET") = lower (cstr w) ∧ rest ≠ []
  | .nullCmd => False

/-- The store is a map, and the config dictionary is one that `setup` builds. -/
structure CmdParserArgs.Valid (args : CmdParserArgs) : Prop where
  sm : ∃ es, SimpleMap.Stores KeyNode.id args.sm es
  capacity : args.sm.capacity < 2 ^ 31
  configDict : Configured args.configDict

theorem valid_initialArgs : initialArgs.Valid where
  sm := ⟨[], SimpleMap.stores_create⟩
  capacity := by decide
  configDict := configured_initialArgs

section Nested

variable {lc : Libc} {now : Timespec} {ra : Realloc} {args : CmdParserArgs} {name : Bytes}
  {next : List Node}

/-- The subcommand of CONFIG. -/
theorem handleConfCmd_eq (w : Bytes) (rest : List Node) {dict : ConfigDict} (h : Configured dict) :
    handleConfCmd lc (.bulk w :: rest) dict =
      if lower (ascii "GET") = lower (cstr w) then handleConfGet lc rest dict else .ok none := by
  obtain ⟨-, hkeys, hvalues, -, -⟩ := h.pairs
  have hguard : (dict.keys.isNone || dict.values.isNone) = false := by
    rw [Option.isNone_eq_false_iff.mpr hkeys, Option.isNone_eq_false_iff.mpr hvalues]
    rfl
  simp only [handleConfCmd, hguard, Bool.false_eq_true, if_false]
  rw [find_scanned lc configCmdOptions (by simp [configCmdOptions, ascii, isSpecial])]
  simp only [configCmdOptions, List.find?_cons, List.find?_nil]
  by_cases hg : lower (ascii "GET") = lower (cstr w)
  · simp [hg]
  · by_cases hs : lower (ascii "SET") = lower (cstr w)
    · simp [hg, hs]
    · simp [hg, hs]

/-- What is not carried out is answered with NULL. -/
theorem runRedisCmd_of_not_isCommand (hv : args.Valid) (h : ¬ IsCommand name next) :
    runRedisCmd lc now ra args (findRedisCmd lc name) next = .ok (none, args) := by
  rw [findRedisCmd_eq]
  unfold IsCommand at h
  cases hc : commandNamed name with
  | nullCmd => rfl
  | echo =>
    simp only [hc, not_not] at h
    subst h
    rfl
  | set =>
    simp only [hc] at h
    have hnull := (handleSetCmd_cases next).resolve_left h
    rw [runRedisCmd, hnull now ra args.sm]
  | get =>
    simp only [hc] at h
    -- no argument, more than one, an array, or the empty key
    have hnull : handleGetCmd lc now next args.sm = (none, args.sm) := by
      rcases next with _ | ⟨k | _, _ | ⟨n, rest⟩⟩
      · rfl
      · have hk : k = [] := by_contra fun hk => h ⟨k, rfl, hk⟩
        subst hk
        rfl
      · rfl
      · rfl
      · rfl
    rw [runRedisCmd, hnull]
  | config =>
    simp only [hc] at h
    have hnull : handleConfCmd lc next args.configDict = .ok none := by
      rcases next with _ | ⟨w | _, rest⟩
      · rfl
      · rw [handleConfCmd_eq w rest hv.configDict]
        split
        · -- CONFIG GET without patterns
          rename_i hw
          have hr : rest = [] := by_contra fun hr => h ⟨w, rest, rfl, hw, hr⟩
          rw [hr]
          rfl
        · rfl
      · rfl
    rw [runRedisCmd, hnull]
    rfl

/-- What is carried out is not answered with NULL, on an empty store. -/
theorem runRedisCmd_of_isCommand (h : IsCommand name next) (args' : CmdParserArgs) :
    runRedisCmd .exact ⟨0, 0⟩ .ok initialArgs (findRedisCmd .exact name) next ≠
      .ok (none, args') := by
  rw [findRedisCmd_eq]
  unfold IsCommand at h
  cases hc : commandNamed name with
  | nullCmd =>
    simp only [hc] at h
  | echo =>
    simp only [hc] at h
    exact fun hrun => handleEchoCmd_ne_null h (map_pair_eq_ok hrun).1
  | set =>
    simp only [hc] at h
    obtain ⟨c, rfl, hs, hk, hv⟩ := h
    obtain ⟨sm, -, hset⟩ := holds_create.handleSetCmd_supported (by unfold Room; decide) ⟨0, 0⟩ hs
      hk hv
    simp only [runRedisCmd, initialArgs, hset]
    simp
  | get =>
    simp only [hc] at h
    obtain ⟨k, rfl, hk⟩ := h
    obtain ⟨sm, -, -, hget⟩ := holds_create.handleGetCmd_eq .exact ⟨0, 0⟩ hk
    simp only [runRedisCmd, initialArgs, hget]
    simp
  | config =>
    simp only [hc] at h
    obtain ⟨w, rest, rfl, hw, hr⟩ := h
    obtain ⟨es, hget, -⟩ := configured_initialArgs.handleConfGet_eq .exact hr
    intro hrun
    have hnull := (map_pair_eq_ok hrun).1
    rw [handleConfCmd_eq w rest configured_initialArgs, if_pos hw, hget] at hnull
    cases hnull

end Nested

/-- Whatever the store, a request is answered with NULL and changes nothing. -/
def Ignored (node : Node) : Prop :=
  ∀ lc now ra (args : CmdParserArgs), args.Valid →
    parseCommand lc now ra args [node] = .ok (none, args)

/-- A request whose first element is an array is ignored exactly if its first bulk string does not
stand in 257 arrays, or 256 more, and so on, or if it is no command there. -/
theorem ignored_iff (size s : Int) (els rest : List Node) :
    Ignored (.array size (.array s els :: rest)) ↔
      ¬ ∃ depth name next, firstBulk els 2 = some (depth, name, next) ∧ depth % 256 = 1 ∧
        IsCommand name next := by
  have hplace : ∀ lc now ra args, parseCommand lc now ra args [.array size (.array s els :: rest)] =
      runAt lc now ra args (firstBulk els 2) := by
    intro lc now ra args
    rw [parseCommand_eq]
    rfl
  constructor
  · rintro h ⟨depth, name, next, hp, hd, hc⟩
    have hrun := h .exact ⟨0, 0⟩ .ok initialArgs valid_initialArgs
    rw [hplace, hp, runAt_some, if_pos hd] at hrun
    exact runRedisCmd_of_isCommand hc _ hrun
  · intro h lc now ra args hv
    rw [hplace]
    cases hp : firstBulk els 2 with
    | none => rfl
    | some place =>
      obtain ⟨depth, name, next⟩ := place
      rw [runAt_some]
      split
      · rename_i hd
        exact runRedisCmd_of_not_isCommand hv fun hc => h ⟨depth, name, next, hp, hd, hc⟩
      · rfl

/-- `n` arrays around a node. -/
def nested : Nat → Node → Node
  | 0, node => node
  | n + 1, node => .array 1 [nested n node]

theorem firstNode_nested (n : Nat) (node : Node) (depth : Nat) :
    (nested n node).firstNode [] depth = node.firstNode [] (depth + n) := by
  induction n generalizing depth with
  | zero => rfl
  | succ n ih =>
    rw [nested, firstNode, firstBulk, ih]
    congr 1
    omega

theorem request_singleton {node : Node} (h : node.Request) : (Node.array 1 [node]).Request :=
  ⟨rfl, List.cons_ne_nil _ _, Nat.one_lt_two_pow (by decide), h, trivial⟩

theorem request_nested {node : Node} (h : node.Request) (n : Nat) : (nested n node).Request := by
  induction n with
  | zero => exact h
  | succ n ih => exact request_singleton ih

/-- `SET k v`. -/
def setKV : SetCommand := ⟨ascii "k", ascii "v", none, none, none⟩

/-- `SET k v` in 256 more arrays is carried out. -/
theorem nestedSet_not_ignored :
    (Node.array 1 [.array 1 [nested 254 (.array 3 (.bulk (ascii "SET") :: setKV.args))]]).Request ∧
    ¬ Ignored (.array 1 [.array 1 [nested 254 (.array 3 (.bulk (ascii "SET") :: setKV.args))]]) := by
  constructor
  · have hset : (Node.array 3 (.bulk (ascii "SET") :: setKV.args)).Request := by
      simp [Node.Request, RequestList, SetCommand.args, setKV, optionArgs, getArgs, timeArgs, ascii]
    exact request_singleton (request_singleton (request_nested hset 254))
  · intro h
    have hrun := h .exact ⟨0, 0⟩ .ok initialArgs valid_initialArgs
    rw [parseCommand_eq, firstBulk, firstNode, firstBulk, firstNode, firstBulk, firstNode_nested,
      firstNode, firstBulk, firstNode, runAt_some, if_pos (by decide)] at hrun
    refine runRedisCmd_of_isCommand ?_ _ hrun
    exact ⟨setKV, rfl, by decide, by decide, by decide⟩

end RedisImpl
