import Mathlib.Algebra.Group.Int.Defs
import Mathlib.Algebra.Group.Nat.Defs
import Mathlib.Data.List.Basic

/-!
# `simple_map.c`

The store: two parallel arrays of slots (`keys`, `values`), a `capacity` and the index `top` of the
last filled slot. A `KeyWrapper*` slot is an `Option`: `none` is NULL. The arrays themselves are
options too, since `set` can lose one when `realloc` fails (`doubleArrays`).

The module is generic in the keys `κ` and the values `ν`, as the C code is through `void*`, and in
the comparison `cmp`. A `void*` key or value is never NULL here: `create_key_val_pair` refuses a
NULL key, and no caller stores a NULL value.

An index past an array reads as an empty slot; under the invariant of `Store/Spec.lean` no
function reads one.
-/

namespace RedisImpl

/-- What the three `realloc` calls of `__double_arrays` return: `true` if the call succeeds. -/
structure Realloc where
  keys : Bool
  values : Bool
  shrink : Bool
  deriving DecidableEq

/-- All allocations succeed. -/
def Realloc.ok : Realloc := ⟨true, true, true⟩

structure KeyValuePair (κ ν : Type) where
  key : κ
  value : ν
  deriving DecidableEq

structure SimpleMap (κ ν : Type) where
  keys : Option (List (Option κ))
  values : Option (List (Option ν))
  capacity : Int
  top : Int
  deriving DecidableEq

/-- `FindKeyStates`, and the position that `__find` returns when it finds the key. -/
inductive FindKey where
  | pos (i : Nat)
  | findKeyError
  | keyArrError
  | keyNotFound
  deriving DecidableEq

/-- `SetKeyValueRtn`. -/
inductive SetRtn where
  | errorSetSmRtn
  | sucessSet
  | sucessUpgrade
  deriving DecidableEq

/-- `RemoveItemState`. -/
inductive RemoveItemState where
  | removeError
  | removeSuccess
  | removeKeyNotFound
  deriving DecidableEq

namespace SimpleMap

variable {κ ν : Type}

/-- The slot `i` of an array of pointers. -/
def slot {α : Type} (xs : List (Option α)) (i : Nat) : Option α := (xs[i]?).join

/-- `create_simple_map`, when its three allocations succeed. -/
def create : SimpleMap κ ν := ⟨some [none], some [none], 1, -1⟩

/-- `__is_full`. -/
def isFull (sm : SimpleMap κ ν) : Bool := sm.top + 1 = sm.capacity

/-- The loop of `__find` from index `i`, `n` slots before the end. -/
def findFrom (cmp : κ → κ → Bool) (key : κ) (ks : List (Option κ)) : Nat → Nat → FindKey
  | 0, _ => .keyNotFound
  | n + 1, i =>
    match slot ks i with
    | none => .keyArrError
    | some k => if cmp k key then .pos i else findFrom cmp key ks n (i + 1)

/-- `__find`. The stored key is the first argument of the comparison. -/
def find (sm : SimpleMap κ ν) (key : κ) (cmp : κ → κ → Bool) : FindKey :=
  match sm.keys with
  | none => .findKeyError
  | some ks => findFrom cmp key ks (sm.top + 1).toNat 0

/-- `2 * sm->capacity` in C `int`, converted to `size_t`: `none` if the product wraps to a
negative number, whose conversion is a size that no `realloc` can give. -/
def doubledCapacity (capacity : Int) : Option Nat :=
  let c := (BitVec.ofInt 32 (2 * capacity)).toInt
  if c < 0 then none else some c.toNat

/-- The array after a `realloc` to `n` slots: the old ones as far as they fit, then new ones. -/
def resize {α : Type} (xs : List (Option α)) (n : Nat) : List (Option α) :=
  xs.take n ++ List.replicate (n - xs.length) none

/-- `__double_arrays`: whether both arrays were doubled, and the map after it. If only the second
`realloc` fails, the first array is shrunk back, and the map keeps what that third call returns. -/
def doubleArrays (ra : Realloc) (sm : SimpleMap κ ν) : Bool × SimpleMap κ ν :=
  match sm.keys, sm.values with
  | some ks, some vs =>
    if sm.capacity = 0 || !sm.isFull then (false, sm) else
    match doubledCapacity sm.capacity with
    | none => (false, sm)
    | some n =>
      if !ra.keys then (false, sm) else
      if !ra.values then
        (false, { sm with
          keys := if ra.shrink then some (resize (resize ks n) sm.capacity.toNat) else none })
      else
        (true, { keys := some (resize ks n), values := some (resize vs n), capacity := n,
                 top := sm.top })
  | _, _ => (false, sm)

/-- The last part of `__set`: `top` moves up and its slot gets the pair. -/
def push (sm : SimpleMap κ ν) (kvp : KeyValuePair κ ν) : SimpleMap κ ν :=
  let top := sm.top + 1
  { sm with
    top := top
    keys := sm.keys.map fun ks => ks.set top.toNat (some kvp.key)
    values := sm.values.map fun vs => vs.set top.toNat (some kvp.value) }

/-- `__set`: a new key. The Boolean is whether it returns the pair (not NULL). -/
def setNew (ra : Realloc) (sm : SimpleMap κ ν) (kvp : KeyValuePair κ ν) : Bool × SimpleMap κ ν :=
  if sm.keys.isNone || sm.values.isNone || sm.capacity = 0 then (false, sm) else
  if sm.isFull then
    match doubleArrays ra sm with
    | (false, sm') => (false, sm')
    | (true, sm') => (true, sm'.push kvp)
  else (true, sm.push kvp)

/-- `__upgrade`: the pair goes into position `pos`, and the caller's pair gets what was there. -/
def upgrade (sm : SimpleMap κ ν) (pos : Nat) (kvp : KeyValuePair κ ν) :
    Option (SimpleMap κ ν × KeyValuePair κ ν) :=
  match sm.keys, sm.values with
  | some ks, some vs =>
    if (pos : Int) > sm.top then none else
    match slot ks pos, slot vs pos with
    | some oldK, some oldV =>
      some ({ sm with keys := some (ks.set pos (some kvp.key)),
                      values := some (vs.set pos (some kvp.value)) }, ⟨oldK, oldV⟩)
    | _, _ => none
  | _, _ => none

/-- `set`: the return code, the map and the caller's pair after it. -/
def set (ra : Realloc) (sm : SimpleMap κ ν) (kvp : KeyValuePair κ ν) (cmp : κ → κ → Bool) :
    SetRtn × SimpleMap κ ν × KeyValuePair κ ν :=
  match sm.find kvp.key cmp with
  | .findKeyError | .keyArrError => (.errorSetSmRtn, sm, kvp)
  | .keyNotFound =>
    match setNew ra sm kvp with
    | (false, sm') => (.errorSetSmRtn, sm', kvp)
    | (true, sm') => (.sucessSet, sm', kvp)
  | .pos i =>
    match upgrade sm i kvp with
    | none => (.errorSetSmRtn, sm, kvp)
    | some (sm', old) => (.sucessUpgrade, sm', old)

/-- `get`: a new pair with the stored key and value, or NULL. -/
def get (sm : SimpleMap κ ν) (key : κ) (cmp : κ → κ → Bool) : Option (KeyValuePair κ ν) :=
  match sm.find key cmp with
  | .keyNotFound | .findKeyError | .keyArrError => none
  | .pos i =>
    match sm.keys, sm.values with
    | some ks, some vs =>
      match slot ks i, slot vs i with
      | some k, some v => some ⟨k, v⟩
      | _, _ => none
    | _, _ => none

/-- The inner loop of `remove_key` from index `i`, `n` slots before `top`: the slots move left by
one, and the last one becomes NULL. -/
def shiftLeft {α : Type} : Nat → Nat → List (Option α) → List (Option α)
  | 0, i, xs => xs.set i none
  | n + 1, i, xs => shiftLeft n (i + 1) (xs.set i (slot xs (i + 1)))

/-- The search loop of `remove_key` from index `i`. Here the caller's key is the first argument of
the comparison. -/
def removeFrom (cmp : κ → κ → Bool) (key : κ) (sm : SimpleMap κ ν) (ks : List (Option κ))
    (vs : List (Option ν)) : Nat → Nat → RemoveItemState × SimpleMap κ ν × Option (KeyValuePair κ ν)
  | 0, _ => (.removeKeyNotFound, sm, none)
  | n + 1, i =>
    match slot ks i with
    | none => (.removeError, sm, none)
    | some rmvKey =>
      if !cmp key rmvKey then removeFrom cmp key sm ks vs n (i + 1) else
      match slot vs i with
      | none => (.removeError, sm, none)
      | some rmvValue =>
        (.removeSuccess,
          { sm with keys := some (shiftLeft n i ks), values := some (shiftLeft n i vs),
                    top := sm.top - 1 },
          some ⟨rmvKey, rmvValue⟩)

/-- `remove_key`: the return code, the map after it, and the pair that `rmv_pair` gets. -/
def removeKey (sm : SimpleMap κ ν) (key : κ) (cmp : κ → κ → Bool) :
    RemoveItemState × SimpleMap κ ν × Option (KeyValuePair κ ν) :=
  match sm.keys, sm.values with
  | some ks, some vs => removeFrom cmp key sm ks vs (sm.top + 1).toNat 0
  | _, _ => (.removeError, sm, none)

end SimpleMap
end RedisImpl
