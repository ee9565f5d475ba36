import RedisImpl.Protocol.Size

/-!
# The reader of requests

`lexer` and `lex_bulk_str`, the constructors of the records, and the three functions that walk over
a finished tree: `delete_array`, `print_array`, and `view`, which is what the commands see of it.

`current` in `lexer` is not initialised, and two arms of its `switch` leave it so: `unset` says what
it holds then, for each state of the memory.
-/

namespace RedisImpl

/-- `PROTO_MAX_BULK_SIZE`. -/
def protoMaxBulkSize : Int := 512000000

/-- `DOLLAR_BYTE`. -/
def dollarByte : UInt8 := 36

/-- `ASTERISK_BYTE`. -/
def asteriskByte : UInt8 := 42

/-- `read_exact_bytes`: the bytes, if the stream has that many. With `MSG_WAITALL`, `recv` takes
what is left if there are fewer. -/
def readExactBytes (len : Nat) : M (Option Bytes) := fun w =>
  let got := w.inp.take len
  .ok (if got.length = 0 ∨ got.length < len then none else some got,
    { w with inp := w.inp.drop len })

/-- `is_valid_terminator`. -/
def isValidTerminator : M Bool := do
  if (← readExactBytes 1) ≠ some [13] then return false
  return (← readExactBytes 1) = some [10]

/-! ## Records -/

/-- `new_base_node`. -/
def newBaseNode (type : RedisDtype) (next prev : Ptr) : M Ptr := alloc (.base ⟨type, next, prev⟩)

/-- `new_array`. -/
def newArray (content next prev : Ptr) (size : Int) : M Ptr := do
  let node ← newBaseNode .array next prev
  alloc (.array node content size)

/-- `new_bulk_str`. -/
def newBulkStr (content next prev : Ptr) (size : Int) : M Ptr := do
  let node ← newBaseNode .bulkStr next prev
  if size ≠ 0 then writeChar content size 0
  alloc (.bulk node content size)

/-! ## Deleting and printing -/

/-- The loop of `delete_array` that goes back to the start of the chain. -/
def rewind : Nat → Ptr → M Ptr
  | 0, _ => throw .timeout
  | fuel + 1, current => do
    let b ← baseOf (← nodeOf current)
    match b.prev with
    | none => return current
    | some prev => rewind fuel (some prev)

/-- `delete_array(current, 0)`. An `ArrayNode` itself is not freed. For a node of another type the
loop stays where it is. -/
def deleteLoop : Nat → Ptr → M Unit
  | _, none => return ()
  | 0, some _ => throw .timeout
  | fuel + 1, some p => do
    let b ← baseOf (← nodeOf (some p))
    match b.type with
    | .array =>
      match ← load (some p) with
      | .array node content _ =>
        deleteLoop fuel content
        free node
        deleteLoop fuel b.next
      | _ => throw .misread
    | .bulkStr =>
      match ← load (some p) with
      | .bulk node content _ =>
        free node
        free content
        free (some p)
        deleteLoop fuel b.next
      | _ => throw .misread
    | _ => if b.next.isSome then deleteLoop fuel (some p) else return ()

/-- `delete_array(el, 1)`. -/
def deleteArray (el : Ptr) : M Unit := fun w =>
  if el.isNone then .ok ((), w) else
  (do deleteLoop (w.heap.size + 1) (← rewind (w.heap.size + 1) el)) w

/-- `printf("%s", content)`. -/
def printString (content : Ptr) : M Unit := do
  if content.isSome then
    match ← load content with
    | .chars bytes => if 0 ∉ bytes then throw .outOfBounds
    | _ => throw .misread

/-- `print_array`, without what it prints. -/
def printLoop : Nat → Ptr → M Unit
  | _, none => return ()
  | 0, some _ => throw .timeout
  | fuel + 1, some p => do
    let b ← baseOf (← nodeOf (some p))
    match b.type with
    | .bulkStr =>
      match ← load (some p) with
      | .bulk _ content _ => printString content
      | _ => throw .misread
    | .array =>
      match ← load (some p) with
      | .array _ content _ => printLoop fuel content
      | _ => throw .misread
    | _ => pure ()
    printLoop fuel b.next

def printArray (arr : Ptr) : M Unit := fun w => printLoop (w.heap.size + 1) arr w

/-- The bytes of a bulk string, as many as `size` says. -/
def bulkBytes (content : Ptr) (size : Int) : M Bytes := do
  match ← load content with
  | .chars bytes =>
    if size + 1 = bytes.length then return bytes.take size.toNat else throw .outOfBounds
  | _ => throw .misread

/-- The chain of nodes at a pointer as the commands see it: they read the type of a node and then
the record as one of that type. -/
def viewLoop : Nat → Ptr → M (List Node)
  | _, none => return []
  | 0, some _ => throw .timeout
  | fuel + 1, some p => do
    let b ← baseOf (← nodeOf (some p))
    let node ← (do
      match b.type with
      | .bulkStr =>
        match ← load (some p) with
        | .bulk _ content size => return .bulk (← bulkBytes content size)
        | _ => throw .misread
      | .array =>
        match ← load (some p) with
        | .array _ content size => return .array size (← viewLoop fuel content)
        | _ => throw .misread
      | _ => throw .misread)
    return node :: (← viewLoop fuel b.next)

def view (p : Ptr) : M (List Node) := fun w => viewLoop (w.heap.size + 1) p w

/-! ## Reading -/

/-- `lex_bulk_str`. -/
def lexBulkStr : M Ptr := do
  let strSize ← getElSize
  if strSize = errInvChar then return none
  if strSize = 0 then
    if !(← isValidTerminator) then return none
    let empStr ← alloc (.chars [0])
    newBulkStr empStr none none 0
  else if strSize = -1 then newBulkStr none none none (-1)
  else if strSize > protoMaxBulkSize then return none
  else if strSize < 0 then
    -- as a `size_t` it is too large for `calloc`, and `recv` does not store at NULL
    return none
  else
    let buf ← alloc (.chars (List.replicate (strSize.toNat + 1) 0))
    match ← readExactBytes strSize.toNat with
    | none =>
      free buf
      return none
    | some bytes =>
      store buf (.chars (bytes ++ [0]))
      if !(← isValidTerminator) then
        free buf
        return none
      newBulkStr buf none none strSize

/-- The value of `current` after the `switch` of `lexer`. -/
def lexCurrent (unset : World → Ptr) (lexer : M Ptr) (nextChar : UInt8) : M Ptr :=
  if nextChar = dollarByte then lexBulkStr
  else if nextChar = asteriskByte then lexer
  else fun w => .ok (unset w, w)

/-- Linking the element `current` to the array, which is made for the first one, and to the element
before it. -/
def linkElement (arrSize : Int) (array previous current : Ptr) : M Ptr := do
  let array ← (do
    if array.isNone then
      let array ← newArray current none none arrSize
      setPrev current array
      return array
    else
      setPrev current previous
      return array)
  if previous.isSome then setNext previous current
  return array

/-- The loop of `lexer`, with the number of elements that are left. -/
def lexElements (unset : World → Ptr) (lexer : M Ptr) (arrSize : Int) :
    Nat → (array previous : Ptr) → M Ptr
  | 0, array, _ => return array
  | left + 1, array, previous => do
    match ← readExactBytes 1 with
    | none =>
      deleteArray previous
      return none
    | some nextChar =>
      let current ← lexCurrent unset lexer (nextChar.headD 0)
      if current.isNone then
        deleteArray previous
        return none
      else
        let array ← linkElement arrSize array previous current
        lexElements unset lexer arrSize left array current

/-- `lexer`, with a bound on how deep it goes. -/
def lexerLoop (unset : World → Ptr) : Nat → M Ptr
  | 0 => throw .timeout
  | fuel + 1 => do
    let arrSize ← getElSize
    if arrSize = errInvChar then return none
    if arrSize = -1 then
      let node ← newBaseNode .nillArray none none
      newArray node none none 1
    else if arrSize = 0 then
      let node ← newBaseNode .emptyArray none none
      newArray node none none 1
    else
      -- the number of elements is compared as `unsigned int`
      lexElements unset (lexerLoop unset fuel) arrSize (BitVec.ofInt 32 arrSize).toNat none none

/-- `lexer`. Each array within another takes at least one byte. -/
def lexer (unset : World → Ptr) : M Ptr := fun w => lexerLoop unset (w.inp.length + 1) w

end RedisImpl
