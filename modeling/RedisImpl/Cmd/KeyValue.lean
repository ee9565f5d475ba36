import RedisImpl.Platform
import RedisImpl.Protocol.Node
import RedisImpl.Store.Spec

/-!
# Key and value nodes

The keys and values of the store (`KeyNode`, `ValueNodeString` of `cmd_handler.h`), how the commands
build them, compare them, write them out and decide that a key has expired. The `size` of a node is
the length of its content: both constructors copy exactly `size` bytes and add a NUL.
-/

namespace RedisImpl

structure KeyNode where
  content : Bytes
  inputTime : Timespec
  ex : BitVec 32
  px : BitVec 32
  deriving DecidableEq

structure ValueNode where
  content : Bytes
  dtype : RedisDtype
  deriving DecidableEq

/-- The store of the server. -/
abbrev Store := SimpleMap KeyNode ValueNode

/-- `create_key_node`: NULL for an empty content. `now` is what `clock_gettime` reads. -/
def createKeyNode (now : Timespec) (content : Bytes) (ex px : BitVec 32) : Option KeyNode :=
  if content.length < 1 then none else some ⟨content, now, ex, px⟩

/-- `create_value_node_string`. -/
def createValueNodeString (content : Bytes) (dtype : RedisDtype) : Option ValueNode :=
  if content.length < 1 then none else some ⟨content, dtype⟩

/-- `create_value_node`. -/
def createValueNode : Node → Option ValueNode
  | .bulk content => createValueNodeString content .bulkStr
  | .array _ _ => none

/-- `compare`: the sizes and the bytes of the keys are equal. -/
def compare (a b : KeyNode) : Bool :=
  if a.content.length ≠ b.content.length then false else a.content = b.content

/-- A RESP bulk string. -/
def bulkString (content : Bytes) : Bytes :=
  ascii "$" ++ decimal content.length ++ ascii "\r\n" ++ content ++ ascii "\r\n"

/-- `key_or_value_node_to_string`: the buffer it fills, without the NUL at its end. The returned
size is the length of the buffer with the NUL. -/
def keyOrValueNodeToString : KeyNode ⊕ ValueNode → Bytes
  | .inl key => bulkString key.content
  | .inr value => bulkString value.content

/-- `has_key_expired`: `delta_sec` is the time between the two nodes' clock readings, in seconds as
a `float`; `ex` counts seconds, `px` milliseconds, and 0 is no limit. -/
def hasKeyExpired (lc : Libc) (newKey prevKey : KeyNode) : Bool :=
  let ex := prevKey.ex
  let px := prevKey.px
  if ex = 0 ∧ px = 0 then false else
  let flt := lc.rounding.flt
  let currTSec := flt (lc.rounding.seconds newKey.inputTime)
  let prevTSec := flt (lc.rounding.seconds prevKey.inputTime)
  let deltaSec := flt (currTSec - prevTSec)
  if ex ≠ 0 then deltaSec > flt ex.toNat
  else flt (deltaSec * 1000) > flt px.toNat

/-- The key bytes of a key node: what `compare` compares. -/
abbrev KeyNode.id (k : KeyNode) : Bytes := k.content

theorem compare_eq_cmpBy : compare = SimpleMap.cmpBy KeyNode.id := by
  funext a b
  by_cases h : a.content = b.content
  · simp [compare, SimpleMap.cmpBy, h]
  · simp [compare, SimpleMap.cmpBy, h]

/-- The pair that `get` finds under a key. -/
def entryAt {ν : Type} (sm : SimpleMap KeyNode ν) (k : Bytes) : Option (KeyValuePair KeyNode ν) :=
  sm.get ⟨k, ⟨0, 0⟩, 0, 0⟩ compare

theorem entryAt_eq {ν : Type} {sm : SimpleMap KeyNode ν} {es : List (KeyNode × ν)}
    (hst : SimpleMap.Stores KeyNode.id sm es) (k : Bytes) :
    entryAt sm k = (Keyed.lookup (SimpleMap.ident KeyNode.id) es k).map fun e => ⟨e.1, e.2⟩ := by
  rw [entryAt, compare_eq_cmpBy, hst.get_eq]

/-- A key is looked up by its content. -/
theorem get_eq_entryAt {ν : Type} (sm : SimpleMap KeyNode ν) (key : KeyNode) :
    sm.get key compare = entryAt sm key.content := by
  have hfind : ∀ ks n i, SimpleMap.findFrom compare key ks n i =
      SimpleMap.findFrom compare ⟨key.content, ⟨0, 0⟩, 0, 0⟩ ks n i := by
    intro ks n i
    induction n generalizing i with
    | zero => rfl
    | succ n ih =>
      simp only [SimpleMap.findFrom, compare, ih]
  simp only [entryAt, SimpleMap.get, SimpleMap.find, hfind]

theorem createKeyNode_of_ne {now : Timespec} {k : Bytes} {ex px : BitVec 32} (hk : k ≠ []) :
    createKeyNode now k ex px = some ⟨k, now, ex, px⟩ := by
  have : ¬ k.length < 1 := by simpa using hk
  rw [createKeyNode, if_neg this]

theorem createValueNode_of_ne {v : Bytes} (hv : v ≠ []) :
    createValueNode (.bulk v) = some ⟨v, .bulkStr⟩ := by
  have : ¬ v.length < 1 := by simpa using hv
  rw [createValueNode, createValueNodeString, if_neg this]

end RedisImpl
