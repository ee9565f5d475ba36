import RedisImpl.Lib.Triple
import RedisImpl.Store.SimpleMap

/-!
# `simple_map.c` in memory

The functions of `Store/SimpleMap.lean` on the blocks that the C code allocates: the record, the two
arrays of pointers, a wrapper for each key and each value, and the pairs. What the callers allocate
and pass as `void*` is `δ`.

A slot that a `realloc` has added is not set; to read one, to read or write outside an array, and to
use or free a block that is gone have no result. `calloc` succeeds. `realloc` moves the array, if it
succeeds, so that no pointer to the old one may be left.
-/

namespace RedisImpl
namespace InMemory

/-- `SimpleMap`. -/
structure SimpleMap where
  keys : Ptr
  values : Ptr
  capacity : Int
  top : Int
  deriving DecidableEq

/-- What a block holds. -/
inductive Obj (δ : Type) where
  | simpleMap (sm : SimpleMap)
  | slots (xs : List (Option Ptr))
  | wrapper (p : Ptr)
  | pair (kvp : KeyValuePair Ptr Ptr)
  | data (d : δ)

variable {δ : Type}

section Access

/-- `*sm`, for a `SimpleMap*`. -/
def simpleMapAt (sm : Ptr) : HeapM (Obj δ) SimpleMap := do
  match ← HeapM.load sm with
  | .simpleMap s => return s
  | _ => failure

/-- `w->key` or `w->value`, for a `KeyWrapper*` or a `ValueWrapper*`. -/
def wrapperAt (w : Ptr) : HeapM (Obj δ) Ptr := do
  match ← HeapM.load w with
  | .wrapper p => return p
  | _ => failure

/-- `*kvp`, for a `KeyValuePair*`. -/
def pairAt (kvp : Ptr) : HeapM (Obj δ) (KeyValuePair Ptr Ptr) := do
  match ← HeapM.load kvp with
  | .pair p => return p
  | _ => failure

/-- The slots of an array of pointers. -/
def slotsAt (xs : Ptr) : HeapM (Obj δ) (List (Option Ptr)) := do
  match ← HeapM.load xs with
  | .slots ps => return ps
  | _ => failure

/-- `xs[i]`. -/
def slotAt (xs : Ptr) (i : Nat) : HeapM (Obj δ) Ptr := do
  let ps ← slotsAt xs
  match SimpleMap.slot ps i with
  | some p => return p
  | none => failure

/-- `xs[i] = p`. -/
def setSlot (xs : Ptr) (i : Nat) (p : Ptr) : HeapM (Obj δ) Unit := do
  let ps ← slotsAt xs
  if i < ps.length then HeapM.store xs (.slots (ps.set i (some p)))
  else failure

/-- `realloc` of an array of pointers to `n` slots. -/
def realloc (succeeds : Bool) (xs : Ptr) (n : Nat) : HeapM (Obj δ) Ptr := do
  if !succeeds then return none
  else
    let ps ← slotsAt xs
    let new ← HeapM.alloc (.slots (SimpleMap.resize ps n))
    HeapM.free xs
    return new

end Access

/-- A comparison of keys: not NULL if they are equal. -/
abbrev CmpFptr (δ : Type) := Ptr → Ptr → HeapM (Obj δ) Ptr

/-- `create_key_val_pair`. -/
def createKeyValPair (key value : Ptr) : HeapM (Obj δ) Ptr := do
  if key.isNone then return none
  else HeapM.alloc (.pair ⟨key, value⟩)

/-- `create_simple_map`. -/
def createSimpleMap : HeapM (Obj δ) Ptr := do
  let sm ← HeapM.alloc (.simpleMap ⟨none, none, 0, 0⟩)
  let kArr ← HeapM.alloc (.slots [some none])
  let vArr ← HeapM.alloc (.slots [some none])
  HeapM.store sm (.simpleMap ⟨kArr, vArr, 1, -1⟩)
  return sm

/-- `__is_full`. -/
def isFull (sm : Ptr) : HeapM (Obj δ) Bool := do
  let s ← simpleMapAt sm
  return s.top + 1 = s.capacity

/-- The loop of `__find` from index `i`, `n` slots before the end. -/
def findFrom (cmp : CmpFptr δ) (keys key : Ptr) : Nat → Nat → HeapM (Obj δ) FindKey
  | 0, _ => return .keyNotFound
  | n + 1, i => do
    let kw ← slotAt keys i
    if kw.isNone then return .keyArrError
    else
      let k ← wrapperAt kw
      let srchEl ← cmp k key
      if srchEl.isSome then return .pos i
      else findFrom cmp keys key n (i + 1)

/-- `__find`. -/
def find (sm key : Ptr) (cmp : CmpFptr δ) : HeapM (Obj δ) FindKey := do
  if sm.isNone || key.isNone then return .findKeyError
  else
    let s ← simpleMapAt sm
    if s.keys.isNone then return .findKeyError
    else findFrom cmp s.keys key (s.top + 1).toNat 0

/-- `get`. -/
def get (sm key : Ptr) (cmp : CmpFptr δ) : HeapM (Obj δ) Ptr := do
  if sm.isNone || key.isNone then return none
  else
    let pos ← find sm key cmp
    match pos with
    | .keyNotFound | .findKeyError | .keyArrError => return none
    | .pos i =>
      let kvp ← HeapM.alloc (.pair ⟨none, none⟩)
      let s ← simpleMapAt sm
      let kw ← slotAt s.keys i
      let key ← wrapperAt kw
      let vw ← slotAt s.values i
      let value ← wrapperAt vw
      HeapM.store kvp (.pair ⟨key, value⟩)
      return kvp

/-- The two `realloc` calls of `__double_arrays`, to `n` slots. -/
def growArrays (ra : Realloc) (sm : Ptr) (s : SimpleMap) (n : Nat) : HeapM (Obj δ) Ptr := do
  let keys ← realloc ra.keys s.keys n
  if keys.isNone then return none
  else
    let values ← realloc ra.values s.values n
    if values.isNone then
      let shrunk ← realloc ra.shrink keys s.capacity.toNat
      HeapM.store sm (.simpleMap { s with keys := shrunk })
      return none
    else
      HeapM.store sm (.simpleMap { s with keys := keys, values := values, capacity := n })
      return sm

/-- `__double_arrays`. -/
def doubleArrays (ra : Realloc) (sm : Ptr) : HeapM (Obj δ) Ptr := do
  if sm.isNone then return none
  else
    let s ← simpleMapAt sm
    if s.keys.isNone || s.values.isNone then return none
    else
      let full ← isFull sm
      if s.capacity = 0 || !full then return none
      else
        match SimpleMap.doubledCapacity s.capacity with
        | none => return none
        | some n => growArrays ra sm s n

/-- The last part of `__set`: `top` moves up and its slot gets the wrappers. -/
def push (sm key value : Ptr) : HeapM (Obj δ) Unit := do
  let s ← simpleMapAt sm
  HeapM.store sm (.simpleMap { s with top := s.top + 1 })
  let s ← simpleMapAt sm
  setSlot s.keys s.top.toNat key
  setSlot s.values s.top.toNat value

/-- `__set`. -/
def setNew (ra : Realloc) (sm keyPar : Ptr) : HeapM (Obj δ) Ptr := do
  if sm.isNone || keyPar.isNone then return none
  else
    let s ← simpleMapAt sm
    let kvp ← pairAt keyPar
    if s.keys.isNone || s.values.isNone || kvp.key.isNone || s.capacity = 0 then return none
    else
      let key ← HeapM.alloc (.wrapper kvp.key)
      let value ← HeapM.alloc (.wrapper kvp.value)
      let full ← isFull sm
      if full then
        let doubled ← doubleArrays ra sm
        if doubled.isNone then
          HeapM.free key
          HeapM.free value
          return none
        else
          push sm key value
          return keyPar
      else
        push sm key value
        return keyPar

/-- `__upgrade`. -/
def upgrade (sm : Ptr) (pos : Nat) (keyPar : Ptr) : HeapM (Obj δ) Ptr := do
  if sm.isNone || keyPar.isNone then return none
  else
    let s ← simpleMapAt sm
    let kvp ← pairAt keyPar
    if s.values.isNone || s.keys.isNone || (pos : Int) > s.top || kvp.key.isNone then return none
    else
      let vw ← slotAt s.values pos
      let oldV ← wrapperAt vw
      let kw ← slotAt s.keys pos
      let oldK ← wrapperAt kw
      HeapM.store vw (.wrapper kvp.value)
      HeapM.store kw (.wrapper kvp.key)
      HeapM.store keyPar (.pair ⟨oldK, oldV⟩)
      return keyPar

/-- `set`. -/
def set (ra : Realloc) (sm keyPar : Ptr) (cmp : CmpFptr δ) : HeapM (Obj δ) SetRtn := do
  if sm.isNone || keyPar.isNone then return .errorSetSmRtn
  else
    let kvp ← pairAt keyPar
    if kvp.key.isNone then return .errorSetSmRtn
    else
      let pos ← find sm kvp.key cmp
      match pos with
      | .findKeyError | .keyArrError => return .errorSetSmRtn
      | .keyNotFound =>
        let added ← setNew ra sm keyPar
        return if added.isNone then .errorSetSmRtn else .sucessSet
      | .pos i =>
        let upgraded ← upgrade sm i keyPar
        return if upgraded.isNone then .errorSetSmRtn else .sucessUpgrade

/-- The inner loop of `remove_key` from index `i`, `n` slots before `top`. -/
def shiftLeft (keys values : Ptr) : Nat → Nat → HeapM (Obj δ) Unit
  | 0, i => do
    setSlot keys i none
    setSlot values i none
  | n + 1, i => do
    let kw ← slotAt keys (i + 1)
    setSlot keys i kw
    let vw ← slotAt values (i + 1)
    setSlot values i vw
    shiftLeft keys values n (i + 1)

/-- The search loop of `remove_key` from index `i`. -/
def removeFrom (cmp : CmpFptr δ) (sm key : Ptr) (s : SimpleMap) :
    Nat → Nat → HeapM (Obj δ) (RemoveItemState × Option (KeyValuePair Ptr Ptr))
  | 0, _ => return (.removeKeyNotFound, none)
  | n + 1, i => do
    let kw ← slotAt s.keys i
    if kw.isNone then return (.removeError, none)
    else
      let rmvKey ← wrapperAt kw
      let found ← cmp key rmvKey
      if found.isNone then removeFrom cmp sm key s n (i + 1)
      else
        let vw ← slotAt s.values i
        let rmvValue ← wrapperAt vw
        shiftLeft s.keys s.values n i
        HeapM.store sm (.simpleMap { s with top := s.top - 1 })
        return (.removeSuccess, some ⟨rmvKey, rmvValue⟩)

/-- `remove_key`: the return code, and the pair that `rmv_pair` gets. The wrappers of the key and the
value are not freed. -/
def removeKey (sm key : Ptr) (cmp : CmpFptr δ) :
    HeapM (Obj δ) (RemoveItemState × Option (KeyValuePair Ptr Ptr)) := do
  if sm.isNone || key.isNone then return (.removeError, none)
  else
    let s ← simpleMapAt sm
    if s.keys.isNone || s.values.isNone then return (.removeError, none)
    else removeFrom cmp sm key s (s.top + 1).toNat 0

/-- The loop of `delete_map` from index `i`, `n` slots before the end. -/
def deleteFrom (cleanUp : Ptr → Ptr → HeapM (Obj δ) Unit) (keys values : Ptr) :
    Nat → Nat → HeapM (Obj δ) Unit
  | 0, _ => return ()
  | n + 1, i => do
    let kw ← slotAt keys i
    let vw ← slotAt values i
    if kw.isNone || vw.isNone then
      HeapM.free kw
      HeapM.free vw
      deleteFrom cleanUp keys values n (i + 1)
    else
      let key ← wrapperAt kw
      let value ← wrapperAt vw
      cleanUp key value
      HeapM.free kw
      HeapM.free vw
      deleteFrom cleanUp keys values n (i + 1)

/-- `delete_map`, with a callback. -/
def deleteMap (sm : Ptr) (cleanUp : Ptr → Ptr → HeapM (Obj δ) Unit) : HeapM (Obj δ) Bool := do
  if sm.isNone then return false
  else
    let s ← simpleMapAt sm
    if s.keys.isNone || s.values.isNone then return false
    else
      deleteFrom cleanUp s.keys s.values (s.top + 1).toNat 0
      HeapM.free s.keys
      HeapM.free s.values
      HeapM.free sm
      return true

end InMemory
end RedisImpl
