import RedisImpl.Lib.Heap
import RedisImpl.Protocol.Node

/-!
# The memory that the reader of the protocol works on

The records of `protocol.h` are untyped in C: `content`, `next` and `prev` are `void*`, and every
consumer casts to `GenericNode` and reads `node->type`. Here each allocated block is a `Cell` that
knows what was stored in it, so that a wrong cast shows up as a fault:

* `M`: a computation on the heap and on the bytes that the client has still to send. It ends with a
  `Fault` where the C program has undefined behaviour.
* `nodeOf`, `baseOf`: `p->node` for `GenericNode* p`, and the `BaseNode` there. A `BaseNode` is no
  `GenericNode`: its first bytes are the type, which is not the address of a record.
-/

namespace RedisImpl

/-- `BaseNode`. -/
structure BaseNode where
  type : RedisDtype
  next : Ptr
  prev : Ptr
  deriving DecidableEq

/-- What a block holds: a `BaseNode`, an `ArrayNode`, a `BulkStringNode`, or an array of `char`. -/
inductive Cell where
  | base (node : BaseNode)
  | array (node content : Ptr) (size : Int)
  | bulk (node content : Ptr) (size : Int)
  | chars (bytes : Bytes)
  deriving DecidableEq

/-- Undefined behaviour; `overflow` is that of an `int`, and `timeout` a computation that does not
end within the given number of steps. -/
inductive Fault where
  | dangling
  | misread
  | outOfBounds
  | overflow
  | timeout
  deriving DecidableEq

/-- The heap, and the bytes that `recv` has still to hand over before the end of the stream. -/
structure World where
  heap : Heap Cell
  inp : Bytes

abbrev M := StateT World (Except Fault)

namespace M

variable {α β : Type} {w v : World}

theorem bind_ok {x : M α} {f : α → M β} {a : α} (h : x w = .ok (a, v)) :
    (x >>= f) w = f a v := by
  show (x w >>= fun p => f p.1 p.2) = f a v
  rw [h]
  rfl

theorem bind_error {x : M α} {f : α → M β} {e : Fault} (h : x w = .error e) :
    (x >>= f) w = .error e := by
  show (x w >>= fun p => f p.1 p.2) = .error e
  rw [h]
  rfl

@[simp] theorem pure_run (a : α) : (pure a : M α) w = .ok (a, w) := rfl

/-- What a computation that returned did first. -/
theorem of_bind_ok {x : M α} {f : α → M β} {b : β} (h : (x >>= f) w = .ok (b, v)) :
    ∃ a u, x w = .ok (a, u) ∧ f a u = .ok (b, v) := by
  cases hx : x w with
  | error e => rw [bind_error hx] at h; cases h
  | ok p => exact ⟨p.1, p.2, rfl, by rw [← h, bind_ok hx]⟩

end M

/-! ## Blocks -/

/-- What the block at `p` holds. -/
def load (p : Ptr) : M Cell := fun w =>
  match p.bind w.heap.load with
  | some c => .ok (c, w)
  | none => .error .dangling

/-- `calloc`, and the stores that follow it. -/
def alloc (c : Cell) : M Ptr := fun w =>
  .ok (some w.heap.size, { w with heap := w.heap.alloc c })

def store (p : Ptr) (c : Cell) : M Unit := fun w =>
  match p with
  | some a =>
    if (w.heap.load a).isSome then .ok ((), { w with heap := w.heap.store a c })
    else .error .dangling
  | none => .error .dangling

def free (p : Ptr) : M Unit := fun w =>
  match p with
  | some a =>
    if (w.heap.load a).isSome then .ok ((), { w with heap := w.heap.free a })
    else .error .dangling
  | none => .ok ((), w)

/-- `p->node`, for a `GenericNode*`. -/
def nodeOf (p : Ptr) : M Ptr := do
  match ← load p with
  | .array node _ _ => return node
  | .bulk node _ _ => return node
  | _ => throw .misread

/-- `*node`, for a `BaseNode*`. -/
def baseOf (node : Ptr) : M BaseNode := do
  match ← load node with
  | .base b => return b
  | _ => throw .misread

/-- `p->node->prev = q`. -/
def setPrev (p q : Ptr) : M Unit := do
  let node ← nodeOf p
  let b ← baseOf node
  store node (.base { b with prev := q })

/-- `p->node->next = q`. -/
def setNext (p q : Ptr) : M Unit := do
  let node ← nodeOf p
  let b ← baseOf node
  store node (.base { b with next := q })

/-- `content[i] = c`. -/
def writeChar (content : Ptr) (i : Int) (c : UInt8) : M Unit := do
  match ← load content with
  | .chars bytes =>
    if 0 ≤ i ∧ i < bytes.length then store content (.chars (bytes.set i.toNat c))
    else throw .outOfBounds
  | _ => throw .misread

/-! ## The rules for a block that is there -/

section Rules

variable {w : World} {a : Nat} {c : Cell}

theorem load_ok (h : w.heap.load a = some c) : load (some a) w = .ok (c, w) := by
  simp only [load, Option.bind_some, h]

theorem load_dangling (h : w.heap.load a = none) : load (some a) w = .error .dangling := by
  simp only [load, Option.bind_some, h]

theorem store_ok (h : w.heap.load a = some c) (c' : Cell) :
    store (some a) c' w = .ok ((), { w with heap := w.heap.store a c' }) := by
  simp only [store, h, Option.isSome_some, if_true]

theorem free_ok (h : w.heap.load a = some c) :
    free (some a) w = .ok ((), { w with heap := w.heap.free a }) := by
  simp only [free, h, Option.isSome_some, if_true]

/-- The record at `a` is a `GenericNode` whose `node` is `n`. -/
def Cell.HasNode (c : Cell) (n : Nat) : Prop :=
  ∃ content size, c = .array (some n) content size ∨ c = .bulk (some n) content size

theorem nodeOf_ok {n : Nat} (h : w.heap.load a = some c) (hc : c.HasNode n) :
    nodeOf (some a) w = .ok (some n, w) := by
  obtain ⟨content, size, rfl | rfl⟩ := hc
  · exact M.bind_ok (load_ok h)
  · exact M.bind_ok (load_ok h)

theorem baseOf_ok {b : BaseNode} (h : w.heap.load a = some (.base b)) :
    baseOf (some a) w = .ok (b, w) :=
  M.bind_ok (load_ok h)

/-- A `BaseNode` read as a `GenericNode`. -/
theorem nodeOf_base {b : BaseNode} (h : w.heap.load a = some (.base b)) :
    nodeOf (some a) w = .error .misread :=
  M.bind_ok (load_ok h)

theorem setPrev_ok {n : Nat} {b : BaseNode} (q : Ptr) (h : w.heap.load a = some c)
    (hc : c.HasNode n) (hb : w.heap.load n = some (.base b)) :
    setPrev (some a) q w =
      .ok ((), { w with heap := w.heap.store n (.base { b with prev := q }) }) :=
  (M.bind_ok (nodeOf_ok h hc)).trans ((M.bind_ok (baseOf_ok hb)).trans (store_ok hb _))

theorem setNext_ok {n : Nat} {b : BaseNode} (q : Ptr) (h : w.heap.load a = some c)
    (hc : c.HasNode n) (hb : w.heap.load n = some (.base b)) :
    setNext (some a) q w =
      .ok ((), { w with heap := w.heap.store n (.base { b with next := q }) }) :=
  (M.bind_ok (nodeOf_ok h hc)).trans ((M.bind_ok (baseOf_ok hb)).trans (store_ok hb _))

end Rules

end RedisImpl
