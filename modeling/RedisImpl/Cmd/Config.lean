import RedisImpl.Cmd.Execute
import RedisImpl.Protocol.Memory
import RedisImpl.Protocol.Resp

/-!
# The config dictionary

The config dictionary, `setup`, which builds it, and its lookup. `handleConfGet` gathers the keys
and values that match a pattern in two arrays with a slot for each entry of the dictionary, and
prints them into one buffer.
-/

namespace RedisImpl

/-- A value may be NULL: `create_value_node_string` returns NULL for an empty string, and `setup`
stores it. -/
abbrev ConfigDict := SimpleMap KeyNode (Option ValueNode)

namespace SimpleMap

variable {κ ν : Type}

/-- `next` of a `SimpleMapWrapper` that is at `index`. -/
def next (sm : SimpleMap κ ν) (index : Nat) : Option (KeyValuePair κ ν) :=
  match sm.keys, sm.values with
  | some ks, some vs =>
    if sm.top < 0 ∨ index > sm.top then none else
    match slot ks index, slot vs index with
    | some k, some v => some ⟨k, v⟩
    | _, _ => none
  | _, _ => none

/-- What `next` returns from `index` on, at most `n` times. -/
def pairsFrom (sm : SimpleMap κ ν) : Nat → Nat → List (KeyValuePair κ ν)
  | 0, _ => []
  | n + 1, index =>
    match sm.next index with
    | none => []
    | some kvp => kvp :: sm.pairsFrom n (index + 1)

/-- What `next` returns from the start until it returns NULL. -/
def pairs (sm : SimpleMap κ ν) : List (KeyValuePair κ ν) := sm.pairsFrom (sm.top + 1).toNat 0

end SimpleMap

/-- The local variables of `handle_conf_get`. The arrays are as long as `nr_inserted_el` says. -/
structure ConfGet where
  keyArray : List Bytes
  valueArray : List Bytes
  totalBytesKeyArr : BitVec 32
  totalBytesValArr : BitVec 32

def ConfGet.nrInsertedEl (g : ConfGet) : Nat := g.keyArray.length

/-- The buffer that `key_or_value_node_to_string` allocates for the text of a node. Its size is an
`int`, which a long text makes negative: then `calloc` returns NULL. -/
def allocated (text : Bytes) : Option Bytes := if text.length + 1 < 2 ^ 31 then some text else none

/-- `is_it_possible_to_insert_the_str_in_array`. It passes a `str` that is NULL to `strcmp`. -/
def isItPossibleToInsertTheStrInArray (arr : List Bytes) (str : Option Bytes) : Except Fault Bool :=
  match arr, str with
  | [], _ => .ok true
  | _ :: _, none => .error .dangling
  | value :: arr, some str => .ok ((value :: arr).all fun value => cstr str ≠ cstr value)

/-- `insert_key_value_str_to_str_array`, into arrays of `size` slots. -/
def insertKeyValueStrToStrArray (size : Nat) (kvp : KeyValuePair KeyNode (Option ValueNode))
    (g : ConfGet) : Except Fault ConfGet :=
  match kvp.value with
  | none => .ok g
  | some value =>
    if value.dtype ≠ .bulkStr then .ok g else
    let keyStr := allocated (keyOrValueNodeToString (.inl kvp.key))
    let valueStr := allocated (keyOrValueNodeToString (.inr value))
    match isItPossibleToInsertTheStrInArray g.keyArray keyStr, keyStr, valueStr with
    | .error f, _, _ => .error f
    | .ok true, some keyStr, some valueStr =>
      if size ≤ g.nrInsertedEl then .error .outOfBounds else
      .ok { keyArray := g.keyArray ++ [keyStr]
            valueArray := g.valueArray ++ [valueStr]
            totalBytesKeyArr := g.totalBytesKeyArr + BitVec.ofNat 32 keyStr.length
            totalBytesValArr := g.totalBytesValArr + BitVec.ofNat 32 valueStr.length }
    | .ok _, _, _ => .ok g

/-- The inner loop of `handle_conf_get`, over the entries `kvps` of the dictionary. -/
def confGetEntries (lc : Libc) (size : Nat) (content : Bytes) :
    List (KeyValuePair KeyNode (Option ValueNode)) → ConfGet → Except Fault ConfGet
  | [], g => .ok g
  | kvp :: kvps, g => do
    let g ←
      if lc.doesTheStringsMatch content kvp.key.content then insertKeyValueStrToStrArray size kvp g
      else .ok g
    confGetEntries lc size content kvps g

/-- The outer loop of `handle_conf_get`, over the arguments. An array is skipped. -/
def confGetNodes (lc : Libc) (configDict : ConfigDict) (size : Nat) :
    List Node → ConfGet → Except Fault ConfGet
  | [], g => .ok g
  | .array _ _ :: next, g => confGetNodes lc configDict size next g
  | .bulk content :: next, g => do
    let g ← confGetEntries lc size content configDict.pairs g
    confGetNodes lc configDict size next g

/-- The loop of `generate_conf_get_response`: each `snprintf` writes at `pos` and moves it by the
length of the whole text, also if the text was cut. Past the end of the buffer `total_bytes - pos`
is huge. `pos` and what `snprintf` returns are an `int`. -/
def printPairs (totalBytes : Nat) : List (Bytes × Bytes) → Nat → Bytes → Except Fault Bytes
  | [], _, response => .ok response
  | (key, value) :: rest, pos, response =>
    if totalBytes < pos then .error .outOfBounds else
    let text := cstr key ++ cstr value
    if 2 ^ 31 ≤ pos + text.length then .error .overflow else
    printPairs totalBytes rest (pos + text.length) (response ++ text.take (totalBytes - pos - 1))

/-- `generate_conf_get_response`. -/
def generateConfGetResponse (g : ConfGet) : Except Fault Bytes :=
  let finalNumEl := 2 * g.nrInsertedEl
  let numElementsBuf := (decimal finalNumEl).take 7
  let totalBytes :=
    1 + numElementsBuf.length + 2 + g.totalBytesKeyArr.toNat + g.totalBytesValArr.toNat + 1
  let text := ascii "*" ++ numElementsBuf ++ ascii "\r\n"
  printPairs totalBytes (g.keyArray.zip g.valueArray) text.length (text.take (totalBytes - 1))

/-- `handle_conf_get`. -/
def handleConfGet (lc : Libc) (bnode : List Node) (configDict : ConfigDict) :
    Except Fault (Option Bytes) :=
  if bnode.isEmpty || configDict.keys.isNone || configDict.values.isNone || configDict.top < 0 then
    .ok none
  else do
    let possibleMaxSize := (configDict.top + 1).toNat
    let g ← confGetNodes lc configDict possibleMaxSize bnode ⟨[], [], 0, 0⟩
    if g.nrInsertedEl = 0 then .ok (some (ascii "*0\r\n")) else
    let response ← generateConfGetResponse g
    .ok (some response)

/-- `ConfigCmdOptions`. -/
inductive ConfigCmdOptions where
  | confGet
  | confSet
  | invalidConfOption
  deriving DecidableEq

/-- `config_cmd_options`, without its end mark. -/
def configCmdOptions : List (Bytes × ConfigCmdOptions) :=
  [(ascii "GET", .confGet), (ascii "SET", .confSet)]

/-- The items that the scan of a table looks at: `table[i++]` reads the first one twice. -/
def scanned {α : Type} (table : List α) : List α := table.take 1 ++ table

/-- `handle_conf_cmd`. -/
def handleConfCmd (lc : Libc) (gnode : List Node) (configDict : ConfigDict) :
    Except Fault (Option Bytes) :=
  match gnode with
  | .bulk cmd :: next =>
    if configDict.keys.isNone || configDict.values.isNone then .ok none else
    match (scanned configCmdOptions).find? fun item => lc.doesTheStringsMatch item.1 cmd with
    | some (_, .confGet) => handleConfGet lc next configDict
    | _ => .ok none
  | _ => .ok none

/-! ## The words of the tables -/

/-- A word without special characters matches the strings that it is up to case. -/
theorem Libc.doesTheStringsMatch_word (lc : Libc) {word : Bytes}
    (hw : ∀ c ∈ word, isSpecial c = false ∧ c ≠ 0) (target : Bytes) :
    lc.doesTheStringsMatch word target = decide (lower word = lower (cstr target)) := by
  have hz : cstr word = word := cstr_eq_self fun h => (hw 0 h).2 rfl
  rw [Libc.doesTheStringsMatch, hz, Bool.eq_iff_iff, decide_eq_true_iff]
  exact lc.fnmatch_literal _ _ fun c hc => (hw c hc).1

/-- The scan of a table of words finds the first one that is the target up to case. -/
theorem find_scanned (lc : Libc) {α : Type} (table : List (Bytes × α))
    (hw : ∀ item ∈ table, ∀ c ∈ item.1, isSpecial c = false ∧ c ≠ 0) (target : Bytes) :
    (scanned table).find? (fun item => lc.doesTheStringsMatch item.1 target) =
      table.find? fun item => decide (lower item.1 = lower (cstr target)) := by
  have hcongr : ∀ items : List (Bytes × α), (∀ item ∈ items, item ∈ table) →
      items.find? (fun item => lc.doesTheStringsMatch item.1 target) =
        items.find? fun item => decide (lower item.1 = lower (cstr target)) := by
    intro items hi
    induction items with
    | nil => rfl
    | cons item items ih =>
      rw [List.find?_cons, List.find?_cons,
        lc.doesTheStringsMatch_word (hw item (hi item List.mem_cons_self)),
        ih fun x hx => hi x (List.mem_cons_of_mem _ hx)]
  cases table with
  | nil => rfl
  | cons item items =>
    rw [hcongr _ (by simp [scanned])]
    simp only [scanned, List.take_succ_cons, List.take_zero, List.cons_append, List.nil_append,
      List.find?_cons]
    split <;> rfl

/-! ## The dictionary -/

/-- A string on the command line: a C string, and no system passes one of half a gigabyte. -/
structure Argument where
  val : Bytes
  nulFree : 0 ∉ val
  short : val.length < 2 ^ 29

/-- `DEFAULT_REDIS_DIR`. -/
def defaultRedisDir : Argument := ⟨ascii "/tmp/redis-data", by decide, by decide⟩

/-- `DEFAULT_REDIS_RDBFILE`. -/
def defaultRedisRdbfile : Argument := ⟨ascii "rdbfile.rdb", by decide, by decide⟩

/-- The loop of `setup`. `exit` is `none`. -/
def setupEntries (ra : Realloc) :
    List (Bytes × Bytes × Timespec) → ConfigDict → Option ConfigDict
  | [], dict => some dict
  | (key, value, now) :: rest, dict =>
    match createKeyNode now key 0 0 with
    | none => none
    | some keyNode =>
      match dict.set ra ⟨keyNode, createValueNodeString value .bulkStr⟩ compare with
      | (.sucessSet, dict', _) => setupEntries ra rest dict'
      | _ => none

/-- `setup`, for the config dictionary. `dir` and `dbfilename` are the options on the command line,
and `now`, `now'` the times at which it creates the keys. -/
def setup (ra : Realloc) (now now' : Timespec) (dir dbfilename : Option Argument) :
    Option ConfigDict :=
  setupEntries ra
    [(ascii "dir", (dir.getD defaultRedisDir).val, now),
      (ascii "dbfilename", (dbfilename.getD defaultRedisRdbfile).val, now')]
    SimpleMap.create

end RedisImpl
