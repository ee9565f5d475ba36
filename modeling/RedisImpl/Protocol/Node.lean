import RedisImpl.Lib.Bytes

/-!
# Request trees

`Node`: what a `GenericNode*` of `protocol.h` points to, as the commands read it. A chain of
siblings linked by `next` is a list, and NULL is the empty list. A `BulkStringNode` has as many
content bytes as its `size` says, and never NULL: `new_bulk_str` cannot build one
(`Protocol/Lexer.lean` has the records and pointers that stand for a `Node`).
-/

namespace RedisImpl

/-- `RedisDtype`. -/
inductive RedisDtype where
  | undefDtype
  | simpleStr
  | int
  | bulkStr
  | array
  | nillArray
  | emptyArray
  deriving DecidableEq

inductive Node where
  | bulk (content : Bytes)
  | array (size : Int) (content : List Node)

namespace Node

/-- `gnode->node->type`. -/
def type : Node → RedisDtype
  | bulk _ => .bulkStr
  | array _ _ => .array

/-- The `BulkStringNode` that a node is, if it is one. -/
def bulkContent : Node → Option Bytes
  | bulk content => some content
  | array _ _ => none

@[simp] theorem bulkContent_bulk (b : Bytes) : (bulk b).bulkContent = some b := rfl
@[simp] theorem bulkContent_array (n : Int) (els : List Node) : (array n els).bulkContent = none := rfl

end Node
end RedisImpl
