import RedisImpl.Protocol.Size

/-!
# What the lexer does to the input

The lexer without its memory: `readArray` takes the same bytes in the same order and builds a
`Shape` instead of records. `Protocol/Refine.lean` shows that the lexer does what it says.

A `Shape` has two kinds of elements that no request stands for: `void`, what the lexer builds for an
empty or nil array, and `stray`, an element whose type byte is neither `$` nor `*`. With strays as
shapes (`Shape true`) the reader says what happens if `current` points to a record there; without
(`Shape false`) it gives up at a stray.

Giving up after a `void` is a fault: `delete_array` reads it as a record.
-/

namespace RedisImpl

/-- What the lexer builds. -/
inductive Shape (s : Bool) where
  | bulk (content : Bytes)
  | array (size : Int) (els : List (Shape s))
  | void (type : RedisDtype)
  | stray (h : s = true)

namespace Shape

variable {s : Bool}

mutual

/-- There is a `void` in it. -/
def spoiled : Shape s → Bool
  | bulk _ => false
  | array _ els => spoiledList els
  | void _ => true
  | stray _ => false

def spoiledList : List (Shape s) → Bool
  | [] => false
  | e :: es => e.spoiled || spoiledList es

end

end Shape

/-- How reading ends: with a value and the bytes that are left, with NULL, or with a fault. -/
inductive Outcome (α : Type) where
  | done (a : α) (rest : Bytes)
  | reject
  | fault

def Outcome.map {α β : Type} (f : α → β) : Outcome α → Outcome β
  | .done a rest => .done (f a) rest
  | .reject => .reject
  | .fault => .fault

/-- What `lex_bulk_str` reads. The nil bulk string is a write through NULL. -/
def readBulk (bs : Bytes) : Outcome Bytes :=
  match readSize bs with
  | .bad => .reject
  | .long => .fault
  | .size n rest =>
    if n = errInvChar then .reject
    else if n = -1 then .fault
    else if n < 0 ∨ 512000000 < n then .reject
    else
      match afterCrlf (rest.drop n.toNat) with
      | none => .reject
      | some rest' => .done (rest.take n.toNat) rest'

variable {s : Bool}

/-- Giving up with the elements `els` read. -/
def giveUp {α : Type} (els : List (Shape s)) : Outcome α :=
  if Shape.spoiledList els then .fault else .reject

/-- The bytes `bs` from an element on, with `k` elements left after `els`. -/
def readElements (readArray : Bytes → Outcome (Shape s)) :
    Nat → List (Shape s) → Bytes → Outcome (List (Shape s))
  | 0, els, bs => .done els bs
  | _ + 1, els, [] => giveUp els
  | k + 1, els, c :: bs =>
    if c = 36 then
      match readBulk bs with
      | .done b rest => readElements readArray k (els ++ [.bulk b]) rest
      | .reject => giveUp els
      | .fault => .fault
    else if c = 42 then
      match readArray bs with
      | .done e rest => readElements readArray k (els ++ [e]) rest
      | .reject => giveUp els
      | .fault => .fault
    else if h : s = true then readElements readArray k (els ++ [.stray h]) bs
    else .fault

/-- The element after the type byte `c`. -/
def readItem (readArray : Bytes → Outcome (Shape s)) (c : UInt8) (bs : Bytes) :
    Outcome (Shape s) :=
  if c = 36 then (readBulk bs).map .bulk
  else if c = 42 then readArray bs
  else if h : s = true then .done (.stray h) bs
  else .fault

/-- What the reader does with an element: with the shapes `els` before it, and `next` for the rest. -/
def afterElement (els : List (Shape s)) (next : List (Shape s) → Bytes → Outcome (List (Shape s))) :
    Outcome (Shape s) → Outcome (List (Shape s))
  | .done e rest => next (els ++ [e]) rest
  | .reject => giveUp els
  | .fault => .fault

theorem readElements_cons (rd : Bytes → Outcome (Shape s)) (k : Nat) (els : List (Shape s))
    (c : UInt8) (bs : Bytes) :
    readElements rd (k + 1) els (c :: bs) =
      afterElement els (readElements rd k) (readItem rd c bs) := by
  rw [readElements, readItem]
  by_cases h36 : c = 36
  · rw [if_pos h36, if_pos h36]
    cases readBulk bs with
    | done b rest => rfl
    | reject => rfl
    | fault => rfl
  rw [if_neg h36, if_neg h36]
  by_cases h42 : c = 42
  · rw [if_pos h42, if_pos h42]
    cases rd bs with
    | done e rest => rfl
    | reject => rfl
    | fault => rfl
  rw [if_neg h42, if_neg h42]
  by_cases hs : s = true
  · rw [dif_pos hs, dif_pos hs]
    rfl
  · rw [dif_neg hs, dif_neg hs]
    rfl

/-- What `lexer` reads, after the `*`. -/
def readArray (s : Bool) : Nat → Bytes → Outcome (Shape s)
  | 0, _ => .fault
  | fuel + 1, bs =>
    match readSize bs with
    | .bad => .reject
    | .long => .fault
    | .size n rest =>
      if n = errInvChar then .reject
      else if n = -1 then .done (.void .nillArray) rest
      else if n = 0 then .done (.void .emptyArray) rest
      else
        match readElements (readArray s fuel) (BitVec.ofInt 32 n).toNat [] rest with
        | .done els rest => .done (.array n els) rest
        | .reject => .reject
        | .fault => .fault

theorem readArray_elements {fuel : Nat} {n : Int} {bs rest : Bytes}
    (hr : readSize bs = .size n rest) (hn : n ≠ errInvChar ∧ n ≠ -1 ∧ n ≠ 0) :
    readArray s (fuel + 1) bs =
      (readElements (readArray s fuel) (BitVec.ofInt 32 n).toNat [] rest).map (.array n) := by
  obtain ⟨h2, h1, h0⟩ := hn
  rw [readArray, hr]
  simp only [if_neg h2, if_neg h1, if_neg h0]
  cases readElements (readArray s fuel) (BitVec.ofInt 32 n).toNat [] rest with
  | done els rest => rfl
  | reject => rfl
  | fault => rfl

/-- What `lexer` reads of a stream. -/
def readRequest (s : Bool) (bs : Bytes) : Outcome (Shape s) := readArray s (bs.length + 1) bs

end RedisImpl
