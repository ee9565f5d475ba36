import RedisImpl.Protocol.Lexer
import RedisImpl.Protocol.Reader

/-!
# How a tree lies in memory

A `Lay` is a shape with the addresses of its records, and `blocks` are the blocks that it takes up,
with their links: the base node of an element points to the next and the previous element, the one
of the first to the array that owns the chain. A proof owns these blocks (`Heap.Owns`), next to
`strays`, the one record that the uninitialised variable points to at strays, and to a frame.

* `setPrev_lay`, `setNext_lay`: the two links of an element.
* `blocksList_append`, `blocksList_concat`: a chain and one more element.
-/

namespace RedisImpl

open Heap

inductive Lay (s : Bool) where
  | bulk (p node content : Nat) (bytes : Bytes)
  | array (p node : Nat) (size : Int) (els : List (Lay s))
  | void (p node content : Nat) (type : RedisDtype)
  | stray (h : s = true)

/-- The record that the uninitialised variable points to, and its base node. -/
structure Stray where
  p : Nat
  node : Nat

namespace Lay

variable {s : Bool} (x : Stray)

mutual

/-- The tree without addresses. -/
def shape : Lay s → Shape s
  | bulk _ _ _ bytes => .bulk bytes
  | array _ _ size els => .array size (shapes els)
  | void _ _ _ type => .void type
  | stray h => .stray h

def shapes : List (Lay s) → List (Shape s)
  | [] => []
  | t :: ts => t.shape :: shapes ts

end

/-- The record of the root. -/
def ptr : Lay s → Nat
  | bulk p _ _ _ => p
  | array p _ _ _ => p
  | void p _ _ _ => p
  | stray _ => x.p

/-- The first element of a chain, and the end of the chain after it. -/
def head (next : Ptr) : List (Lay s) → Ptr
  | [] => next
  | t :: _ => some (t.ptr x)

/-- The last element of a chain, and what is before the chain. -/
def last (prev : Ptr) : List (Lay s) → Ptr
  | [] => prev
  | t :: ts => last (some (t.ptr x)) ts

mutual

/-- The blocks of a tree whose root has these links. -/
def blocks (next prev : Ptr) : Lay s → List (Nat × Cell)
  | bulk p node content bytes =>
    [(node, .base ⟨.bulkStr, next, prev⟩), (p, .bulk (some node) (some content) bytes.length),
      (content, .chars (bytes ++ [0]))]
  | array p node size els =>
    (node, .base ⟨.array, next, prev⟩) :: (p, .array (some node) (head x none els) size) ::
      blocksList none (some p) els
  | void p node content type =>
    [(node, .base ⟨.array, next, prev⟩), (p, .array (some node) (some content) 1),
      (content, .base ⟨type, none, none⟩)]
  | stray _ => []

/-- The blocks of a chain, with what comes after and before it. -/
def blocksList (next prev : Ptr) : List (Lay s) → List (Nat × Cell)
  | [] => []
  | t :: ts => blocks (head x next ts) prev t ++ blocksList next (some (t.ptr x)) ts

end

/-- The record at strays, with the links that it happens to have. -/
def strays (s : Bool) (next prev : Ptr) : List (Nat × Cell) :=
  if s then [(x.node, .base ⟨.undefDtype, next, prev⟩), (x.p, .array (some x.node) none 0)] else []

theorem strays_true (next prev : Ptr) : strays x true next prev =
    [(x.node, .base ⟨.undefDtype, next, prev⟩), (x.p, .array (some x.node) none 0)] := rfl

theorem shapes_append (ts us : List (Lay s)) : shapes (ts ++ us) = shapes ts ++ shapes us := by
  induction ts with
  | nil => rfl
  | cons t ts ih => rw [List.cons_append, shapes, shapes, ih, List.cons_append]

theorem head_append (next : Ptr) (ts us : List (Lay s)) :
    head x next (ts ++ us) = head x (head x next us) ts := by
  cases ts with
  | nil => rfl
  | cons t ts => rfl

theorem last_concat (prev : Ptr) (ts : List (Lay s)) (t : Lay s) :
    last x prev (ts ++ [t]) = some (t.ptr x) := by
  induction ts generalizing prev with
  | nil => rfl
  | cons u ts ih => exact ih _

theorem blocksList_append (next prev : Ptr) (ts us : List (Lay s)) :
    blocksList x next prev (ts ++ us) =
      blocksList x (head x next us) prev ts ++ blocksList x next (last x prev ts) us := by
  induction ts generalizing prev with
  | nil => rfl
  | cons t ts ih =>
    rw [List.cons_append, blocksList, blocksList, ih, head_append, List.append_assoc]
    rfl

/-- A chain that ends with `t`. -/
theorem blocksList_concat (next prev : Ptr) (ts : List (Lay s)) (t : Lay s) :
    blocksList x next prev (ts ++ [t]) =
      blocksList x (some (t.ptr x)) prev ts ++ blocks x next (last x prev ts) t := by
  rw [blocksList_append]
  simp only [blocksList, head, List.append_nil]

end Lay

/-! ## The links of an element -/

section Links

variable {w : World} {n p : Nat} {b : BaseNode} {c : Cell} {rest : List (Nat × Cell)}

/-- Reading `p->node` and `*p->node`, with the base node as the first owned block. -/
theorem nodeOf_owns (ho : Owns w.heap ((n, .base b) :: rest)) (hp : (p, c) ∈ rest)
    (hc : c.HasNode n) : nodeOf (some p) w = .ok (some n, w) :=
  nodeOf_ok (ho.load_of_mem (List.mem_cons_of_mem _ hp)) hc

theorem baseOf_owns (ho : Owns w.heap ((n, .base b) :: rest)) : baseOf (some n) w = .ok (b, w) :=
  baseOf_ok (ho.load_of_mem List.mem_cons_self)

theorem setPrev_owns (ho : Owns w.heap ((n, .base b) :: rest)) (hp : (p, c) ∈ rest)
    (hc : c.HasNode n) (q : Ptr) :
    ∃ h, setPrev (some p) q w = .ok ((), { w with heap := h }) ∧
      Owns h ((n, .base { b with prev := q }) :: rest) :=
  ⟨_, setPrev_ok q (ho.load_of_mem (List.mem_cons_of_mem _ hp)) hc
    (ho.load_of_mem List.mem_cons_self), ho.store _⟩

theorem setNext_owns (ho : Owns w.heap ((n, .base b) :: rest)) (hp : (p, c) ∈ rest)
    (hc : c.HasNode n) (q : Ptr) :
    ∃ h, setNext (some p) q w = .ok ((), { w with heap := h }) ∧
      Owns h ((n, .base { b with next := q }) :: rest) :=
  ⟨_, setNext_ok q (ho.load_of_mem (List.mem_cons_of_mem _ hp)) hc
    (ho.load_of_mem List.mem_cons_self), ho.store _⟩

theorem hasNode_array (n : Nat) (content : Ptr) (size : Int) :
    (Cell.array (some n) content size).HasNode n := ⟨content, size, .inl rfl⟩

theorem hasNode_bulk (n : Nat) (content : Ptr) (size : Int) :
    (Cell.bulk (some n) content size).HasNode n := ⟨content, size, .inr rfl⟩

variable {s : Bool} {x : Stray} {next prev sn sp : Ptr} {F : List (Nat × Cell)}

/-- The blocks at strays come first. -/
theorem owns_strays_first {h : Heap Cell} {bs : List (Nat × Cell)} :
    Owns h (bs ++ (Lay.strays x true sn sp ++ F)) ↔
      Owns h ((x.node, .base ⟨.undefDtype, sn, sp⟩) ::
        ((x.p, .array (some x.node) none 0) :: (bs ++ F))) := by
  have hp : (bs ++ (Lay.strays x true sn sp ++ F)).Perm
      ((x.node, .base ⟨.undefDtype, sn, sp⟩) ::
        ((x.p, .array (some x.node) none 0) :: (bs ++ F))) := by
    rw [Lay.strays_true, List.cons_append, List.cons_append, List.nil_append]
    exact List.perm_middle.trans (List.perm_middle.cons _)
  exact ⟨fun ho => ho.perm hp, fun ho => ho.perm hp.symm⟩

/-- Linking an element to the one before it, or to the array. -/
theorem setPrev_lay (t : Lay s)
    (ho : Owns w.heap (t.blocks x next prev ++ (Lay.strays x s sn sp ++ F))) (q : Ptr) :
    ∃ h sn' sp', setPrev (some (t.ptr x)) q w = .ok ((), { w with heap := h }) ∧
      Owns h (t.blocks x next q ++ (Lay.strays x s sn' sp' ++ F)) := by
  cases t with
  | bulk p node content bytes =>
    obtain ⟨h, hr, ho'⟩ := setPrev_owns ho (p := p) List.mem_cons_self (hasNode_bulk ..) q
    exact ⟨h, sn, sp, hr, ho'⟩
  | array p node size els =>
    obtain ⟨h, hr, ho'⟩ := setPrev_owns ho (p := p) List.mem_cons_self (hasNode_array ..) q
    exact ⟨h, sn, sp, hr, ho'⟩
  | void p node content type =>
    obtain ⟨h, hr, ho'⟩ := setPrev_owns ho (p := p) List.mem_cons_self (hasNode_array ..) q
    exact ⟨h, sn, sp, hr, ho'⟩
  | stray hs =>
    cases s with
    | false => cases hs
    | true =>
      obtain ⟨h, hr, ho'⟩ := setPrev_owns (owns_strays_first.mp ho) (p := x.p) List.mem_cons_self
        (hasNode_array ..) q
      exact ⟨h, sn, q, hr, owns_strays_first.mpr ho'⟩

/-- Linking an element to the one after it. -/
theorem setNext_lay (t : Lay s)
    (ho : Owns w.heap (t.blocks x next prev ++ (Lay.strays x s sn sp ++ F))) (q : Ptr) :
    ∃ h sn' sp', setNext (some (t.ptr x)) q w = .ok ((), { w with heap := h }) ∧
      Owns h (t.blocks x q prev ++ (Lay.strays x s sn' sp' ++ F)) := by
  cases t with
  | bulk p node content bytes =>
    obtain ⟨h, hr, ho'⟩ := setNext_owns ho (p := p) List.mem_cons_self (hasNode_bulk ..) q
    exact ⟨h, sn, sp, hr, ho'⟩
  | array p node size els =>
    obtain ⟨h, hr, ho'⟩ := setNext_owns ho (p := p) List.mem_cons_self (hasNode_array ..) q
    exact ⟨h, sn, sp, hr, ho'⟩
  | void p node content type =>
    obtain ⟨h, hr, ho'⟩ := setNext_owns ho (p := p) List.mem_cons_self (hasNode_array ..) q
    exact ⟨h, sn, sp, hr, ho'⟩
  | stray hs =>
    cases s with
    | false => cases hs
    | true =>
      obtain ⟨h, hr, ho'⟩ := setNext_owns (owns_strays_first.mp ho) (p := x.p) List.mem_cons_self
        (hasNode_array ..) q
      exact ⟨h, q, sp, hr, owns_strays_first.mpr ho'⟩

end Links

end RedisImpl
