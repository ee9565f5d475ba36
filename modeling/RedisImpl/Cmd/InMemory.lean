import RedisImpl.Cmd.Execute
import RedisImpl.Store.InMemory

/-!
# GET and SET in memory

The functions of `Cmd/KeyValue.lean` and `Cmd/Execute.lean` on the blocks that the C code allocates:
the nodes of the keys and values with their contents and times, the pairs, the slots of the parsed
command and the replies. The nodes of the request are read as values, and `validate_set_cmd`, which
only fills in its block, is that of `Cmd/Validate.lean`.

A copy past the end of a buffer has no result.
-/

namespace RedisImpl
namespace InMemory

/-- `KeyNode`. -/
structure KeyNode where
  content : Ptr
  inputTime : Ptr
  ex : BitVec 32
  px : BitVec 32
  size : Nat

/-- `ValueNodeString`. -/
structure ValueNode where
  content : Ptr
  dtype : RedisDtype
  size : Nat

/-- What the blocks of `cmd_handler.c` hold. -/
inductive Datum where
  | keyNode (k : KeyNode)
  | valueNode (v : ValueNode)
  | timespec (ts : Timespec)
  | chars (s : Bytes)
  | parsedCmd (slots : ParsedCmd)

/-- A computation of `cmd_handler.c`. -/
abbrev Mem := HeapM (Obj Datum)

section Access

/-- `*key`, for a `KeyNode*`. -/
def keyNodeAt (key : Ptr) : Mem KeyNode := do
  match ← HeapM.load key with
  | .data (.keyNode k) => return k
  | _ => failure

/-- `*value`, for a `ValueNodeString*`. -/
def valueNodeAt (value : Ptr) : Mem ValueNode := do
  match ← HeapM.load value with
  | .data (.valueNode v) => return v
  | _ => failure

def timespecAt (ts : Ptr) : Mem Timespec := do
  match ← HeapM.load ts with
  | .data (.timespec t) => return t
  | _ => failure

def charsAt (s : Ptr) : Mem Bytes := do
  match ← HeapM.load s with
  | .data (.chars bs) => return bs
  | _ => failure

def parsedCmdAt (p : Ptr) : Mem ParsedCmd := do
  match ← HeapM.load p with
  | .data (.parsedCmd slots) => return slots
  | _ => failure

/-- `s[i]`. -/
def charAt (s : Ptr) (i : Nat) : Mem UInt8 := do
  let bs ← charsAt s
  match bs[i]? with
  | some c => return c
  | none => failure

/-- The first `n` bytes at `s`. -/
def bytesAt (s : Ptr) (n : Nat) : Mem Bytes := do
  let bs ← charsAt s
  if n ≤ bs.length then return bs.take n
  else failure

/-- `calloc` of `n` bytes. -/
def callocChars (n : Nat) : Mem Ptr := HeapM.alloc (.data (.chars (List.replicate n 0)))

/-- `memcpy` to `dest + pos`. -/
def memcpy (dest : Ptr) (pos : Nat) (src : Bytes) : Mem Unit := do
  let bs ← charsAt dest
  if pos + src.length ≤ bs.length then
    HeapM.store dest (.data (.chars (bs.take pos ++ src ++ bs.drop (pos + src.length))))
  else failure

end Access

/-! ## Nodes -/

/-- `create_key_node`. `now` is what `clock_gettime` writes. -/
def createKeyNode (now : Timespec) (content : Bytes) (ex px : BitVec 32) : Mem Ptr := do
  if content.length < 1 then return none
  else
    let kn ← HeapM.alloc (.data (.keyNode ⟨none, none, 0, 0, 0⟩))
    let ts ← HeapM.alloc (.data (.timespec ⟨0, 0⟩))
    HeapM.store ts (.data (.timespec now))
    let copy ← callocChars (content.length + 1)
    memcpy copy 0 content
    memcpy copy content.length [0]
    HeapM.store kn (.data (.keyNode ⟨copy, ts, ex, px, content.length⟩))
    return kn

/-- `create_value_node_string`. -/
def createValueNodeString (content : Bytes) (dtype : RedisDtype) : Mem Ptr := do
  if content.length < 1 then return none
  else
    let vns ← HeapM.alloc (.data (.valueNode ⟨none, dtype, 0⟩))
    let copy ← callocChars (content.length + 1)
    memcpy copy 0 content
    memcpy copy content.length [0]
    HeapM.store vns (.data (.valueNode ⟨copy, dtype, content.length⟩))
    return vns

/-- `create_value_node`. -/
def createValueNode : Node → Mem Ptr
  | .bulk content => createValueNodeString content .bulkStr
  | .array _ _ => return none

/-- The loop of `compare` from index `i`, `n` bytes before the end. -/
def compareFrom (a b : Ptr) : Nat → Nat → Mem Bool
  | 0, _ => return true
  | n + 1, i => do
    let ca ← charAt a i
    let cb ← charAt b i
    if ca ≠ cb then return false
    else compareFrom a b n (i + 1)

/-- `compare`. -/
def compare (a b : Ptr) : Mem Ptr := do
  if a.isNone || b.isNone then return none
  else
    let ka ← keyNodeAt a
    let kb ← keyNodeAt b
    if ka.size ≠ kb.size then return none
    else
      let same ← compareFrom ka.content kb.content ka.size 0
      return if same then a else none

/-- The first part of `clean_up_kv`. -/
def cleanUpKey (key : Ptr) : Mem Unit := do
  if key.isNone then return ()
  else
    let k ← keyNodeAt key
    HeapM.free k.content
    HeapM.free k.inputTime
    HeapM.free key

/-- The second part of `clean_up_kv`. -/
def cleanUpValue (value : Ptr) : Mem Unit := do
  if value.isNone then return ()
  else
    let v ← valueNodeAt value
    match v.dtype with
    | .bulkStr =>
      HeapM.free v.content
      HeapM.free value
    | _ => HeapM.free value

/-- `clean_up_kv`. -/
def cleanUpKv (key value : Ptr) : Mem Unit := do
  cleanUpKey key
  cleanUpValue value

/-- `clean_up_kv(kvp->key, kvp->value)`. -/
def cleanUpPair (kvp : Ptr) : Mem Unit := do
  let p ← pairAt kvp
  cleanUpKv p.key p.value

/-- `cpy_str`. -/
def cpyStr (src : Bytes) : Mem Ptr := do
  let dest ← callocChars (src.length + 1)
  memcpy dest 0 (src ++ [0])
  return dest

/-- `NodeType`. -/
inductive NodeType where
  | typeValueNode
  | typeKeyNode
  deriving DecidableEq

/-- The size and the content of a node. -/
def contentOf (node : Ptr) : NodeType → Mem (Nat × Ptr)
  | .typeKeyNode => do
    let k ← keyNodeAt node
    return (k.size, k.content)
  | .typeValueNode => do
    let v ← valueNodeAt node
    return (v.size, v.content)

/-- `key_or_value_node_to_string`: the buffer that `rtn_val` gets. -/
def keyOrValueNodeToString (node : Ptr) (nt : NodeType) : Mem Ptr := do
  if node.isNone then return none
  else
    let (size, content) ← contentOf node nt
    let sizeBuf := decimal size
    let rtnVal ← callocChars (1 + sizeBuf.length + 2 + size + 3)
    memcpy rtnVal 0 (ascii "$")
    memcpy rtnVal 1 sizeBuf
    memcpy rtnVal (1 + sizeBuf.length) (ascii "\r\n")
    let bs ← bytesAt content size
    memcpy rtnVal (1 + sizeBuf.length + 2) bs
    memcpy rtnVal (1 + sizeBuf.length + 2 + size) (ascii "\r\n")
    memcpy rtnVal (1 + sizeBuf.length + 2 + size + 2) [0]
    return rtnVal

/-- `has_key_expired`. -/
def hasKeyExpired (lc : Libc) (newKey prevKey : Ptr) : Mem Bool := do
  let prev ← keyNodeAt prevKey
  if prev.ex = 0 ∧ prev.px = 0 then return false
  else
    let new ← keyNodeAt newKey
    let currTime ← timespecAt new.inputTime
    let prevTime ← timespecAt prev.inputTime
    return RedisImpl.hasKeyExpired lc ⟨[], currTime, 0, 0⟩ ⟨[], prevTime, prev.ex, prev.px⟩

/-! ## SET -/

/-- `__execute_set_check`: whether it returns the map. Otherwise the pair is cleaned up. -/
def executeSetCheck (sm kvp : Ptr) : Mem Bool := do
  if kvp.isNone then return false
  else
    let p ← pairAt kvp
    let s ← simpleMapAt sm
    if p.key.isNone || p.value.isNone || s.values.isNone || s.keys.isNone then
      cleanUpKv p.key p.value
      HeapM.free kvp
      return false
    else
      let key ← keyNodeAt p.key
      if key.content.isNone then
        cleanUpKv p.key p.value
        HeapM.free kvp
        return false
      else return true

/-- `execute_set_basic`, whose first part is `__execute_set_check` once more. -/
def executeSetBasic (ra : Realloc) (sm kvp : Ptr) : Mem Ptr := do
  let valid ← executeSetCheck sm kvp
  if !valid then return none
  else
    let rtn ← set ra sm kvp compare
    match rtn with
    | .errorSetSmRtn =>
      let rtnVal ← callocChars (nil.length + 1)
      cleanUpPair kvp
      HeapM.free kvp
      return rtnVal
    | .sucessSet =>
      let rtnVal ← cpyStr ok
      HeapM.free kvp
      return rtnVal
    | .sucessUpgrade =>
      cleanUpPair kvp
      let rtnVal ← cpyStr ok
      HeapM.free kvp
      return rtnVal

/-- The last part of `execute_set_get`: the pair holds the key and the value that were replaced. -/
def replyOldValue (kvp : Ptr) : Mem Ptr := do
  let p ← pairAt kvp
  if p.value.isNone then
    cleanUpPair kvp
    HeapM.free kvp
    cpyStr nil
  else
    let oldValue ← valueNodeAt p.value
    if oldValue.dtype = .bulkStr ∧ oldValue.content.isSome then
      let rtnVal ← keyOrValueNodeToString p.value .typeValueNode
      cleanUpPair kvp
      HeapM.free kvp
      return rtnVal
    else
      cleanUpPair kvp
      HeapM.free kvp
      cpyStr nil

/-- `execute_set_get`. -/
def executeSetGet (ra : Realloc) (sm kvp : Ptr) : Mem Ptr := do
  let valid ← executeSetCheck sm kvp
  if !valid then return none
  else
    let rtn ← set ra sm kvp compare
    match rtn with
    | .errorSetSmRtn =>
      cleanUpPair kvp
      HeapM.free kvp
      return none
    | .sucessSet =>
      let rtnVal ← cpyStr nil
      HeapM.free kvp
      return rtnVal
    | .sucessUpgrade => replyOldValue kvp

/-- The branch for NX. The pair `old_kvp` is not freed, nor the key and the value if `set` fails. -/
def executeNx (ra : Realloc) (sm kvp oldKvp : Ptr) : Mem Ptr := do
  if oldKvp.isNone then
    let rtn ← set ra sm kvp compare
    let rtnVal ← cpyStr (if rtn = .sucessSet then ok else nil)
    HeapM.free kvp
    return rtnVal
  else
    let rtnVal ← cpyStr nil
    cleanUpPair kvp
    HeapM.free kvp
    return rtnVal

/-- The branch for XX. -/
def executeXx (ra : Realloc) (sm kvp oldKvp : Ptr) : Mem Ptr := do
  if oldKvp.isSome then
    let rtn ← set ra sm kvp compare
    if rtn = .sucessUpgrade then
      let rtnVal ← cpyStr ok
      cleanUpPair kvp
      HeapM.free kvp
      return rtnVal
    else
      let rtnVal ← cpyStr nil
      HeapM.free kvp
      return rtnVal
  else
    let rtnVal ← cpyStr nil
    cleanUpPair kvp
    HeapM.free kvp
    return rtnVal

/-- `execute_set_nx_xx`. -/
def executeSetNxXx (ra : Realloc) (sm kvp : Ptr) (parsedCmd : ParsedCmd) : Mem Ptr := do
  let valid ← executeSetCheck sm kvp
  if !valid || (parsedCmd 3).isNone then return none
  else
    match parsedCmd.content 3 with
    | none =>
      cleanUpPair kvp
      HeapM.free kvp
      return none
    | some option =>
      if cstr option = ascii "NX" then
        let p ← pairAt kvp
        let oldKvp ← get sm p.key compare
        executeNx ra sm kvp oldKvp
      else if cstr option = ascii "XX" then
        let p ← pairAt kvp
        let oldKvp ← get sm p.key compare
        executeXx ra sm kvp oldKvp
      else
        cleanUpPair kvp
        HeapM.free kvp
        return none

/-- The reply that `execute_set_nxxx_get` builds from the value that `get` found. -/
def oldValueReply (value : Ptr) : Mem Ptr := do
  let oldValue ← valueNodeAt value
  if oldValue.dtype = .bulkStr ∧ oldValue.content.isSome then
    keyOrValueNodeToString value .typeValueNode
  else cpyStr nil

/-- The last part of `execute_set_nxxx_get`. -/
def setAndReply (ra : Realloc) (sm kvp : Ptr) (parsedCmd : ParsedCmd) (rtnVal : Ptr) : Mem Ptr := do
  let rtn ← executeSetNxXx ra sm kvp parsedCmd
  if rtn.isSome then
    HeapM.free rtn
    return rtnVal
  else
    HeapM.free rtnVal
    return none

/-- `execute_set_nxxx_get`. The pair `kvp_old` is not freed. -/
def executeSetNxxxGet (ra : Realloc) (sm kvp : Ptr) (parsedCmd : ParsedCmd) : Mem Ptr := do
  let valid ← executeSetCheck sm kvp
  if !valid then return none
  else if (parsedCmd 3).isNone then
    cleanUpPair kvp
    HeapM.free kvp
    return none
  else
    let p ← pairAt kvp
    let kvpOld ← get sm p.key compare
    if kvpOld.isNone then
      let rtnVal ← cpyStr nil
      setAndReply ra sm kvp parsedCmd rtnVal
    else
      let old ← pairAt kvpOld
      if old.key.isNone || old.value.isNone then
        cleanUpPair kvp
        HeapM.free kvp
        return none
      else
        let oldKey ← keyNodeAt old.key
        if oldKey.content.isNone then
          cleanUpPair kvp
          HeapM.free kvp
          return none
        else
          let rtnVal ← oldValueReply old.value
          setAndReply ra sm kvp parsedCmd rtnVal

/-- `execute_set_ex_px_exat_pxat`. -/
def executeSetExPxExatPxat (ra : Realloc) (sm kvp : Ptr) (parsedCmd : ParsedCmd) : Mem Ptr := do
  let valid ← executeSetCheck sm kvp
  if !valid then return none
  else
    match parsedCmd.content 1, parsedCmd.content 0 with
    | some option, some timeNd =>
      let time := stringToUint timeNd
      let p ← pairAt kvp
      let key ← keyNodeAt p.key
      match getOptionType option with
      | .ex | .exat =>
        HeapM.store p.key (.data (.keyNode { key with ex := time }))
        executeSetBasic ra sm kvp
      | .px | .pxat =>
        HeapM.store p.key (.data (.keyNode { key with px := time }))
        executeSetBasic ra sm kvp
      | _ =>
        cleanUpPair kvp
        return none
    | _, _ => return none

/-- The executor for the state. The pair and what it points to is left where there is none. -/
def executeState (ra : Realloc) (state : BitVec 8) (slots : ParsedCmd) (sm kvp : Ptr) : Mem Ptr :=
  if state = SetState.setBasic.val then executeSetBasic ra sm kvp else
  if state = SetState.setGet.val then executeSetGet ra sm kvp else
  if state = SetState.setNxxx.val then executeSetNxXx ra sm kvp slots else
  if state = SetState.setNxxxGet.val then executeSetNxxxGet ra sm kvp slots else
  if state = SetState.setExPxExalPxat.val then executeSetExPxExatPxat ra sm kvp slots else
  return none

/-- `execute_set_cmd`. -/
def executeSetCmd (now : Timespec) (ra : Realloc) (state : BitVec 8) (parsedCmd sm : Ptr) :
    Mem Ptr := do
  let slots ← parsedCmdAt parsedCmd
  match slots.content 5, slots 4 with
  | some k, some v =>
    let key ← createKeyNode now k 0 0
    if key.isNone then return none
    else
      let value ← createValueNode v
      if value.isNone then
        cleanUpKv key none
        return none
      else
        let kvp ← createKeyValPair key value
        executeState ra state slots sm kvp
  | _, _ => return none

/-- `handle_set_cmd`. Without arguments `validate_set_cmd` returns before its `calloc`. -/
def handleSetCmd (now : Timespec) (ra : Realloc) (node : List Node) (sm : Ptr) : Mem Ptr := do
  if node.isEmpty then return none
  else
    let parsedCmd ← HeapM.alloc (.data (.parsedCmd fun _ => none))
    match validateSetCmd node with
    | none =>
      HeapM.free parsedCmd
      return none
    | some (state, slots) =>
      HeapM.store parsedCmd (.data (.parsedCmd slots))
      let rtn ← executeSetCmd now ra state parsedCmd sm
      HeapM.free parsedCmd
      return rtn

/-! ## GET -/

/-- The branch of `handle_get_cmd` for a key that has expired. -/
def removeExpired (sm key kvp : Ptr) : Mem Ptr := do
  let removed ← removeKey sm key compare
  match removed with
  | (.removeError, _) =>
    cleanUpKv key none
    HeapM.free kvp
    return none
  | (.removeKeyNotFound, _) =>
    cleanUpKv key none
    HeapM.free kvp
    cpyStr nil
  | (.removeSuccess, none) => failure
  | (.removeSuccess, some removedKvp) =>
    cleanUpKv key none
    cleanUpKv removedKvp.key removedKvp.value
    HeapM.free kvp
    cpyStr nil

/-- The last part of `handle_get_cmd`. -/
def replyValue (key kvp value : Ptr) : Mem Ptr := do
  let v ← valueNodeAt value
  match v.dtype with
  | .bulkStr =>
    let rtn ← keyOrValueNodeToString value .typeValueNode
    cleanUpKv key none
    HeapM.free kvp
    return rtn
  | _ =>
    cleanUpKv key none
    HeapM.free kvp
    return none

/-- `handle_get_cmd`. -/
def handleGetCmd (lc : Libc) (now : Timespec) (gnode : List Node) (sm : Ptr) : Mem Ptr := do
  match isCmdValid gnode with
  | none => return none
  | some content =>
    let key ← createKeyNode now content 0 0
    if key.isNone then return none
    else
      let kvp ← get sm key compare
      if kvp.isNone then
        let rtn ← cpyStr nil
        cleanUpKv key none
        return rtn
      else
        let p ← pairAt kvp
        if p.value.isNone || p.key.isNone then
          cleanUpKv key none
          HeapM.free kvp
          return none
        else
          let expired ← hasKeyExpired lc key p.key
          if expired then removeExpired sm key kvp
          else replyValue key kvp p.value

end InMemory
end RedisImpl
