import RedisImpl.Cmd.Validate
import RedisImpl.Util

/-!
# The executors of SET, and GET

Each executor returns the reply (the buffer without the NUL at its end; `none` is NULL) and the
store. The clean-up of keys and values with `clean_up_kv` frees memory that nothing refers to any
more, so it has no counterpart here. Keys and values are never NULL (`Store/SimpleMap.lean`), so the
checks for that are not repeated.
-/

namespace RedisImpl

def ok : Bytes := ascii "+OK\r\n"

def nil : Bytes := ascii "$-1\r\n"

/-- `SET_STATES`. -/
inductive SetState where
  | setBasic
  | setNxxx
  | setGet
  | setExPxExalPxat
  | setNxxxExpx
  | setGetExpx
  | setNxxxGet
  deriving DecidableEq

/-- The value of the enumerator. -/
def SetState.val : SetState → BitVec 8
  | .setBasic => 0b01110000
  | .setNxxx => 0b01111000
  | .setGet => 0b01110100
  | .setExPxExalPxat => 0b01110011
  | .setNxxxExpx => 0b01111011
  | .setGetExpx => 0b01110111
  | .setNxxxGet => 0b01111100

/-- `__execute_set_check`. -/
def executeSetCheck (sm : Store) : Bool := sm.values.isSome && sm.keys.isSome

theorem executeSetCheck_stores {sm : Store} {es : List (KeyNode × ValueNode)}
    (h : SimpleMap.Stores KeyNode.id sm es) : executeSetCheck sm = true := by
  obtain ⟨kt, hk, -⟩ := h.keys
  obtain ⟨vt, hv, -⟩ := h.values
  simp [executeSetCheck, hk, hv]

/-- `execute_set_basic`. When `set` fails the reply is a zeroed buffer of six bytes. -/
def executeSetBasic (ra : Realloc) (sm : Store) (kvp : KeyValuePair KeyNode ValueNode) :
    Option Bytes × Store :=
  if !executeSetCheck sm then (none, sm) else
  match sm.set ra kvp compare with
  | (.errorSetSmRtn, sm', _) => (some (List.replicate nil.length 0), sm')
  | (.sucessSet, sm', _) => (some ok, sm')
  | (.sucessUpgrade, sm', _) => (some ok, sm')

/-- The reply to a SET without NX, XX and GET when `set` fails: a buffer that nothing is copied
to. -/
def zeros : Bytes := List.replicate nil.length 0

theorem executeSetBasic_eq (ra : Realloc) (sm : Store) (kvp : KeyValuePair KeyNode ValueNode) :
    executeSetBasic ra sm kvp =
      if executeSetCheck sm = true then
        (some (if (sm.set ra kvp compare).1 = .errorSetSmRtn then zeros else ok),
          (sm.set ra kvp compare).2.1)
      else (none, sm) := by
  unfold executeSetBasic
  cases executeSetCheck sm with
  | false => rfl
  | true =>
    rcases sm.set ra kvp compare with ⟨_ | _ | _, sm', old⟩
    · rfl
    · rfl
    · rfl

/-- `execute_set_get`. After `set` replaced an entry the pair holds the old key and value. -/
def executeSetGet (ra : Realloc) (sm : Store) (kvp : KeyValuePair KeyNode ValueNode) :
    Option Bytes × Store :=
  if !executeSetCheck sm then (none, sm) else
  match sm.set ra kvp compare with
  | (.errorSetSmRtn, sm', _) => (none, sm')
  | (.sucessSet, sm', _) => (some nil, sm')
  | (.sucessUpgrade, sm', old) =>
    match old.value.dtype with
    | .bulkStr => (some (keyOrValueNodeToString (.inr old.value)), sm')
    | _ => (some nil, sm')

/-- The content of the bulk string in a slot of `parsed_cmd`. -/
def ParsedCmd.content (parsedCmd : ParsedCmd) (i : Fin 6) : Option Bytes :=
  (parsedCmd i).bind Node.bulkContent

/-- `execute_set_nx_xx`. -/
def executeSetNxXx (ra : Realloc) (sm : Store) (kvp : KeyValuePair KeyNode ValueNode)
    (parsedCmd : ParsedCmd) : Option Bytes × Store :=
  if !executeSetCheck sm then (none, sm) else
  match parsedCmd.content 3 with
  | none => (none, sm)
  | some option =>
    if cstr option = ascii "NX" then
      match sm.get kvp.key compare with
      | none =>
        match sm.set ra kvp compare with
        | (.sucessSet, sm', _) => (some ok, sm')
        | (_, sm', _) => (some nil, sm')
      | some _ => (some nil, sm)
    else if cstr option = ascii "XX" then
      match sm.get kvp.key compare with
      | some _ =>
        match sm.set ra kvp compare with
        | (.sucessUpgrade, sm', _) => (some ok, sm')
        | (_, sm', _) => (some nil, sm')
      | none => (some nil, sm)
    else (none, sm)

/-- The reply that `execute_set_nxxx_get` builds from the pair that `get` found. -/
def oldValueReply (kvpOld : Option (KeyValuePair KeyNode ValueNode)) : Bytes :=
  match kvpOld with
  | none => nil
  | some old =>
    match old.value.dtype with
    | .bulkStr => keyOrValueNodeToString (.inr old.value)
    | _ => nil

/-- `execute_set_nxxx_get`. -/
def executeSetNxxxGet (ra : Realloc) (sm : Store) (kvp : KeyValuePair KeyNode ValueNode)
    (parsedCmd : ParsedCmd) : Option Bytes × Store :=
  if !executeSetCheck sm then (none, sm) else
  if (parsedCmd 3).isNone then (none, sm) else
  let rtnVal := oldValueReply (sm.get kvp.key compare)
  match executeSetNxXx ra sm kvp parsedCmd with
  | (some _, sm') => (some rtnVal, sm')
  | (none, sm') => (none, sm')

/-- `execute_set_ex_px_exat_pxat`: EX and EXAT go into `ex`, PX and PXAT into `px`. -/
def executeSetExPxExatPxat (ra : Realloc) (sm : Store) (kvp : KeyValuePair KeyNode ValueNode)
    (parsedCmd : ParsedCmd) : Option Bytes × Store :=
  if !executeSetCheck sm then (none, sm) else
  match parsedCmd.content 1, parsedCmd.content 0 with
  | some option, some timeNd =>
    let time := stringToUint timeNd
    match getOptionType option with
    | .ex | .exat => executeSetBasic ra sm { kvp with key := { kvp.key with ex := time } }
    | .px | .pxat => executeSetBasic ra sm { kvp with key := { kvp.key with px := time } }
    | _ => (none, sm)
  | _, _ => (none, sm)

/-- `execute_set_cmd`: the key and the value from `parsed_cmd[5]` and `parsed_cmd[4]`, then the
executor for the state. `SET_GET_EXPX` and `SET_NXXX_EXPX` have no executor. -/
def executeSetCmd (now : Timespec) (ra : Realloc) (state : BitVec 8) (parsedCmd : ParsedCmd)
    (sm : Store) : Option Bytes × Store :=
  match parsedCmd.content 5, parsedCmd 4 with
  | some k, some v =>
    match createKeyNode now k 0 0, createValueNode v with
    | some key, some value =>
      let kvp : KeyValuePair KeyNode ValueNode := ⟨key, value⟩
      if state = SetState.setBasic.val then executeSetBasic ra sm kvp else
      if state = SetState.setGet.val then executeSetGet ra sm kvp else
      if state = SetState.setNxxx.val then executeSetNxXx ra sm kvp parsedCmd else
      if state = SetState.setNxxxGet.val then executeSetNxxxGet ra sm kvp parsedCmd else
      if state = SetState.setExPxExalPxat.val then executeSetExPxExatPxat ra sm kvp parsedCmd else
      (none, sm)
    | _, _ => (none, sm)
  | _, _ => (none, sm)

/-- `handle_set_cmd`. -/
def handleSetCmd (now : Timespec) (ra : Realloc) (node : List Node) (sm : Store) :
    Option Bytes × Store :=
  match validateSetCmd node with
  | none => (none, sm)
  | some (state, parsedCmd) => executeSetCmd now ra state parsedCmd sm

/-- `is_cmd_valid`: one bulk string and nothing after it. -/
def isCmdValid : List Node → Option Bytes
  | [.bulk content] => some content
  | _ => none

/-- `handle_get_cmd`. An expired key is removed when it is read. -/
def handleGetCmd (lc : Libc) (now : Timespec) (gnode : List Node) (sm : Store) :
    Option Bytes × Store :=
  match isCmdValid gnode with
  | none => (none, sm)
  | some content =>
    match createKeyNode now content 0 0 with
    | none => (none, sm)
    | some key =>
      match sm.get key compare with
      | none => (some nil, sm)
      | some kvp =>
        if hasKeyExpired lc key kvp.key then
          match sm.removeKey key compare with
          | (.removeError, sm', _) => (none, sm')
          | (.removeKeyNotFound, sm', _) => (some nil, sm')
          | (.removeSuccess, sm', _) => (some nil, sm')
        else
          match kvp.value.dtype with
          | .bulkStr => (some (keyOrValueNodeToString (.inr kvp.value)), sm)
          | _ => (none, sm)

end RedisImpl
