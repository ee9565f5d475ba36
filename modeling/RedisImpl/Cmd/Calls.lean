import RedisImpl.Cmd.Reference
import RedisImpl.Cmd.Shared

/-!
# The handlers as sequences of steps on the shared store

`Calls` is what a handler still has to do with what it shares with the other workers: the map, and
the nodes that `get` gave it a pointer to. Each node is a step, and what comes after it depends on
what the step returned. A handler writes to the map with its last step, if at all. The nodes that
`set` or `remove_key` hands it then are its own, so its reply is built in the same step; they are
cleaned up in a step after it (`Cmd/Workers.lean`).

* `Calls.step`: one step, which fails where it reads nodes that are freed. `Calls.run`: all steps
  without interruption.
* `run_handleSetCmd`, `run_handleGetCmd`: run without interruption, the calls of a handler read no
  freed nodes, and they are the handler.
-/

namespace RedisImpl

/-- When a handler cleans up the nodes that it has after `set`: the new ones if they are not in the
map, the old ones if there were some. -/
inductive SetCleanUp where
  | never
  | upgraded
  | notSet

def SetCleanUp.cleans : SetCleanUp → SetRtn → Bool
  | never, _ => false
  | upgraded, rtn => rtn = .sucessUpgrade
  | notSet, rtn => rtn ≠ .sucessSet

/-- What a handler still has to do. `read` is one reading of the nodes at an address. -/
inductive Calls where
  | reply (r : Option Bytes)
  | check (next : Bool → Calls)
  | get (key : KeyNode) (next : Ptr → Calls)
  | read (p : Nat) (next : KeyValuePair KeyNode ValueNode → Calls)
  | set (kvp : KeyValuePair KeyNode ValueNode)
      (r : SetRtn → KeyValuePair KeyNode ValueNode → Option Bytes) (cleanUp : SetCleanUp)
  | removeKey (key : KeyNode) (r : RemoveItemState → Option Bytes)

namespace Calls

/-- One step: what is left to do, the store after it, and the nodes to clean up. -/
def step : Calls → Shared → Option (Calls × Shared × Ptr)
  | reply r, m => some (reply r, m, none)
  | check next, m => some (next (RedisImpl.executeSetCheck m.store), m, none)
  | get key next, m => some (next (m.get key), m, none)
  | read p next, m => (m.nodes.load p).map fun kvp => (next kvp, m, none)
  | set kvp r cleanUp, m =>
    match m.set kvp with
    | (rtn, m', kvp') =>
      some (reply (r rtn (kvp'.mapValue Located.node)), m',
        if cleanUp.cleans rtn then some kvp'.value.addr else none)
  | removeKey key r, m =>
    match m.removeKey key with
    | (state, m', rmvPair) => some (reply (r state), m', rmvPair)

/-- All steps: the reply, and what the map holds after them. -/
def run : Calls → Shared → Option (Option Bytes × Store)
  | reply r, m => some (r, m.store)
  | check next, m => (next (RedisImpl.executeSetCheck m.store)).run m
  | get key next, m => (next (m.get key)).run m
  | read p next, m =>
    match m.nodes.load p with
    | none => none
    | some kvp => (next kvp).run m
  | set kvp r _, m =>
    match m.store.set .ok kvp compare with
    | (rtn, sm', kvp') => some (r rtn kvp', sm')
  | removeKey key r, m =>
    match m.store.removeKey key compare with
    | (state, sm', _) => some (r state, sm')

/-- The first step, then the rest. -/
theorem run_step {c c' : Calls} {m m' : Shared} {p : Ptr} (h : c.step m = some (c', m', p)) :
    c'.run m' = c.run m := by
  cases c with
  | reply r =>
    cases h
    rfl
  | check next =>
    cases h
    rfl
  | get key next =>
    cases h
    rfl
  | read a next =>
    obtain ⟨kvp, hl, heq⟩ := Option.map_eq_some_iff.mp h
    cases heq
    rw [run, hl]
  | set kvp r cleanUp =>
    rcases hset : m.set kvp with ⟨rtn, m₁, kvp'⟩
    rw [step, hset] at h
    cases h
    rw [run, run, m.store_set, hset]
  | removeKey key r =>
    rcases hrm : m.removeKey key with ⟨state, m₁, rmvPair⟩
    rw [step, hrm] at h
    cases h
    rw [run, run, m.store_removeKey, hrm]

/-- Calls that run have a first step. -/
theorem step_of_run {c : Calls} {m : Shared} {x : Option Bytes × Store} (h : c.run m = some x) :
    ∃ c' m' p, c.step m = some (c', m', p) := by
  cases c with
  | reply r => exact ⟨_, _, _, rfl⟩
  | check next => exact ⟨_, _, _, rfl⟩
  | get key next => exact ⟨_, _, _, rfl⟩
  | read a next =>
    rw [run] at h
    cases hl : m.nodes.load a with
    | none =>
      rw [hl] at h
      cases h
    | some kvp => exact ⟨next kvp, m, none, by rw [step, hl]; rfl⟩
  | set kvp r cleanUp => exact ⟨_, _, _, rfl⟩
  | removeKey key r => exact ⟨_, _, _, rfl⟩

/-- Another reply at the end. -/
def mapReply (f : Option Bytes → Option Bytes) : Calls → Calls
  | reply r => reply (f r)
  | check next => check fun b => (next b).mapReply f
  | get key next => get key fun p => (next p).mapReply f
  | read p next => read p fun kvp => (next kvp).mapReply f
  | set kvp r cleanUp => set kvp (fun rtn kvp' => f (r rtn kvp')) cleanUp
  | removeKey key r => removeKey key fun state => f (r state)

theorem run_mapReply (f : Option Bytes → Option Bytes) (c : Calls) (m : Shared) :
    (c.mapReply f).run m = (c.run m).map fun x => (f x.1, x.2) := by
  induction c with
  | reply r => rfl
  | check next ih => exact ih _
  | get key next ih => exact ih _
  | read p next ih =>
    simp only [mapReply, run]
    cases m.nodes.load p with
    | none => rfl
    | some kvp => exact ih kvp
  | set kvp r cleanUp => rfl
  | removeKey key r => rfl

/-- `__execute_set_check` before the calls `next`. -/
def checked (next : Calls) : Calls := check fun ok => if !ok then reply none else next

/-! ## The executors -/

def executeSetBasic (kvp : KeyValuePair KeyNode ValueNode) : Calls :=
  checked <| set kvp
    (fun rtn _ =>
      match rtn with
      | .errorSetSmRtn => some (List.replicate nil.length 0)
      | .sucessSet | .sucessUpgrade => some ok)
    .notSet

def executeSetGet (kvp : KeyValuePair KeyNode ValueNode) : Calls :=
  checked <| set kvp
    (fun rtn old =>
      match rtn with
      | .errorSetSmRtn => none
      | .sucessSet => some nil
      | .sucessUpgrade =>
        match old.value.dtype with
        | .bulkStr => some (keyOrValueNodeToString (.inr old.value))
        | _ => some nil)
    .notSet

/-- The reply of NX and XX, which expect `set` to return `want`. -/
def setReply (want : SetRtn) (rtn : SetRtn) (_ : KeyValuePair KeyNode ValueNode) : Option Bytes :=
  if rtn = want then some ok else some nil

/-- `execute_set_nx_xx`. Neither option looks into the pair that `get` returns. -/
def executeSetNxXx (kvp : KeyValuePair KeyNode ValueNode) (parsedCmd : ParsedCmd) : Calls :=
  checked <|
    match parsedCmd.content 3 with
    | none => reply none
    | some option =>
      if cstr option = ascii "NX" then
        get kvp.key fun oldKvp =>
          match oldKvp with
          | none => set kvp (setReply .sucessSet) .never
          | some _ => reply (some nil)
      else if cstr option = ascii "XX" then
        get kvp.key fun oldKvp =>
          match oldKvp with
          | some _ => set kvp (setReply .sucessUpgrade) .upgraded
          | none => reply (some nil)
      else reply none

/-- `execute_set_nx_xx` for `execute_set_nxxx_get`, whose reply is `rtnVal`. -/
def thenNxXx (kvp : KeyValuePair KeyNode ValueNode) (parsedCmd : ParsedCmd) (rtnVal : Bytes) :
    Calls :=
  (executeSetNxXx kvp parsedCmd).mapReply fun r => r.map fun _ => rtnVal

/-- `execute_set_nxxx_get`: the old key's content, the type of the old value and its content are
read one after the other. The content of a key node is never NULL (`createKeyNode`). -/
def executeSetNxxxGet (kvp : KeyValuePair KeyNode ValueNode) (parsedCmd : ParsedCmd) : Calls :=
  checked <|
    if (parsedCmd 3).isNone then reply none else
    get kvp.key fun kvpOld =>
      match kvpOld with
      | none => thenNxXx kvp parsedCmd nil
      | some p =>
        read p fun _ => read p fun old =>
          match old.value.dtype with
          | .bulkStr =>
            read p fun old => thenNxXx kvp parsedCmd (keyOrValueNodeToString (.inr old.value))
          | _ => thenNxXx kvp parsedCmd nil

def executeSetExPxExatPxat (kvp : KeyValuePair KeyNode ValueNode) (parsedCmd : ParsedCmd) : Calls :=
  checked <|
    match parsedCmd.content 1, parsedCmd.content 0 with
    | some option, some timeNd =>
      let time := stringToUint timeNd
      match getOptionType option with
      | .ex | .exat => executeSetBasic { kvp with key := { kvp.key with ex := time } }
      | .px | .pxat => executeSetBasic { kvp with key := { kvp.key with px := time } }
      | _ => reply none
    | _, _ => reply none

def executeSetCmd (now : Timespec) (state : BitVec 8) (parsedCmd : ParsedCmd) : Calls :=
  match parsedCmd.content 5, parsedCmd 4 with
  | some k, some v =>
    match createKeyNode now k 0 0, createValueNode v with
    | some key, some value =>
      let kvp : KeyValuePair KeyNode ValueNode := ⟨key, value⟩
      if state = SetState.setBasic.val then executeSetBasic kvp else
      if state = SetState.setGet.val then executeSetGet kvp else
      if state = SetState.setNxxx.val then executeSetNxXx kvp parsedCmd else
      if state = SetState.setNxxxGet.val then executeSetNxxxGet kvp parsedCmd else
      if state = SetState.setExPxExalPxat.val then executeSetExPxExatPxat kvp parsedCmd else
      reply none
    | _, _ => reply none
  | _, _ => reply none

def handleSetCmd (now : Timespec) (node : List Node) : Calls :=
  match validateSetCmd node with
  | none => reply none
  | some (state, parsedCmd) => executeSetCmd now state parsedCmd

/-- The reply of GET after it removed an expired key. -/
def removeReply (state : RemoveItemState) : Option Bytes :=
  match state with
  | .removeError => none
  | .removeKeyNotFound | .removeSuccess => some nil

/-- What GET does with the pair it found: it reads the key for its expiry, then the type of the
value, then its content. -/
def getFound (lc : Libc) (key : KeyNode) : Ptr → Calls
  | none => reply (some nil)
  | some p =>
    read p fun kvp =>
      if hasKeyExpired lc key kvp.key then removeKey key removeReply else
      read p fun kvp =>
        match kvp.value.dtype with
        | .bulkStr => read p fun kvp => reply (some (keyOrValueNodeToString (.inr kvp.value)))
        | _ => reply none

def handleGetCmd (lc : Libc) (now : Timespec) (gnode : List Node) : Calls :=
  match isCmdValid gnode with
  | none => reply none
  | some content =>
    match createKeyNode now content 0 0 with
    | none => reply none
    | some key => get key (getFound lc key)

/-! ## Without interruption -/

theorem run_checked (next : Calls) (m : Shared) :
    (checked next).run m =
      if !RedisImpl.executeSetCheck m.store then some (none, m.store) else next.run m := by
  rw [checked, run]
  cases RedisImpl.executeSetCheck m.store with
  | false => rfl
  | true => rfl

/-- The block that `get` returns holds the pair that the map has. -/
theorem run_read {m : Shared} (hm : SharedInv m) {k : Bytes} {e : KeyValuePair KeyNode Located}
    (he : entryAt m.map k = some e) (next : KeyValuePair KeyNode ValueNode → Calls) :
    (read e.value.addr next).run m = (next (e.mapValue Located.node)).run m := by
  rw [run, hm.live k e he]
  rfl

section Executors

variable (m : Shared) (kvp : KeyValuePair KeyNode ValueNode) (parsedCmd : ParsedCmd)

theorem run_executeSetBasic :
    (executeSetBasic kvp).run m = some (RedisImpl.executeSetBasic .ok m.store kvp) := by
  rw [executeSetBasic, run_checked, RedisImpl.executeSetBasic, run]
  cases RedisImpl.executeSetCheck m.store with
  | false => rfl
  | true => rcases m.store.set .ok kvp compare with ⟨_ | _ | _, sm', kvp'⟩ <;> rfl

theorem run_executeSetGet :
    (executeSetGet kvp).run m = some (RedisImpl.executeSetGet .ok m.store kvp) := by
  rw [executeSetGet, run_checked, RedisImpl.executeSetGet, run]
  cases RedisImpl.executeSetCheck m.store with
  | false => rfl
  | true =>
    rcases m.store.set .ok kvp compare with ⟨_ | _ | _, sm', k, ⟨v, dtype⟩⟩
    · rfl
    · rfl
    · cases dtype <;> rfl

theorem get_store (key : KeyNode) :
    m.store.get key compare =
      (entryAt m.map key.content).map (KeyValuePair.mapValue Located.node) := by
  rw [get_eq_entryAt, m.entryAt_store]

theorem run_executeSetNxXx :
    (executeSetNxXx kvp parsedCmd).run m =
      some (RedisImpl.executeSetNxXx .ok m.store kvp parsedCmd) := by
  rw [executeSetNxXx, run_checked, RedisImpl.executeSetNxXx]
  cases RedisImpl.executeSetCheck m.store with
  | false => rfl
  | true =>
    cases parsedCmd.content 3 with
    | none => rfl
    | some option =>
      simp only [Bool.not_true, Bool.false_eq_true, if_false]
      by_cases hnx : cstr option = ascii "NX"
      · rw [if_pos hnx, if_pos hnx, run, m.get_eq, get_store]
        cases entryAt m.map kvp.key.content with
        | none =>
          simp only [Option.map_none, run]
          rcases m.store.set .ok kvp compare with ⟨_ | _ | _, sm', kvp'⟩ <;> rfl
        | some old => rfl
      · rw [if_neg hnx, if_neg hnx]
        by_cases hxx : cstr option = ascii "XX"
        · rw [if_pos hxx, if_pos hxx, run, m.get_eq, get_store]
          cases entryAt m.map kvp.key.content with
          | none => rfl
          | some old =>
            simp only [Option.map_some, run]
            rcases m.store.set .ok kvp compare with ⟨_ | _ | _, sm', kvp'⟩ <;> rfl
        · rw [if_neg hxx, if_neg hxx]
          rfl

theorem run_thenNxXx (rtnVal : Bytes) :
    (thenNxXx kvp parsedCmd rtnVal).run m =
      some (match RedisImpl.executeSetNxXx .ok m.store kvp parsedCmd with
        | (some _, sm') => (some rtnVal, sm')
        | (none, sm') => (none, sm')) := by
  rw [thenNxXx, run_mapReply, run_executeSetNxXx]
  rcases RedisImpl.executeSetNxXx .ok m.store kvp parsedCmd with ⟨_ | r, sm'⟩
  · rfl
  · rfl

theorem run_executeSetNxxxGet {m : Shared} (hm : SharedInv m) :
    (executeSetNxxxGet kvp parsedCmd).run m =
      some (RedisImpl.executeSetNxxxGet .ok m.store kvp parsedCmd) := by
  rw [executeSetNxxxGet, run_checked, RedisImpl.executeSetNxxxGet]
  cases RedisImpl.executeSetCheck m.store with
  | false => rfl
  | true =>
    cases hnone : (parsedCmd 3).isNone with
    | true => rfl
    | false =>
      have hthen := run_thenNxXx m kvp parsedCmd
      simp only [Bool.not_true, Bool.false_eq_true, if_false, run, m.get_eq, get_store]
      cases he : entryAt m.map kvp.key.content with
      | none => exact hthen nil
      | some e =>
        simp only [Option.map_some, run_read hm he]
        rcases e with ⟨k, ⟨v, dtype⟩, addr⟩
        cases dtype with
        | bulkStr => exact (run_read hm he _).trans (hthen _)
        | _ => exact hthen nil

theorem run_executeSetExPxExatPxat :
    (executeSetExPxExatPxat kvp parsedCmd).run m =
      some (RedisImpl.executeSetExPxExatPxat .ok m.store kvp parsedCmd) := by
  rw [executeSetExPxExatPxat, run_checked, RedisImpl.executeSetExPxExatPxat]
  cases RedisImpl.executeSetCheck m.store with
  | false => rfl
  | true =>
    cases parsedCmd.content 1 with
    | none => rfl
    | some option =>
      cases parsedCmd.content 0 with
      | none => rfl
      | some timeNd =>
        simp only [Bool.not_true, Bool.false_eq_true, if_false]
        cases getOptionType option with
        | ex | exat | px | pxat => simp only [run_executeSetBasic]
        | nx | xx | get | invalid => rfl

end Executors

section Handlers

variable {m : Shared} (hm : SharedInv m)

include hm

theorem run_executeSetCmd (now : Timespec) (state : BitVec 8) (parsedCmd : ParsedCmd) :
    (executeSetCmd now state parsedCmd).run m =
      some (RedisImpl.executeSetCmd now .ok state parsedCmd m.store) := by
  unfold executeSetCmd RedisImpl.executeSetCmd
  cases parsedCmd.content 5 with
  | none => rfl
  | some k =>
    cases parsedCmd 4 with
    | none => rfl
    | some v =>
      simp only
      cases createKeyNode now k 0 0 with
      | none => rfl
      | some key =>
        cases createValueNode v with
        | none => rfl
        | some value =>
          simp only [apply_ite (fun c => run c m), run_executeSetBasic, run_executeSetGet,
            run_executeSetNxXx, run_executeSetNxxxGet _ _ hm, run_executeSetExPxExatPxat,
            apply_ite some]
          rfl

/-- Run without interruption, the calls of SET are SET. -/
theorem run_handleSetCmd (now : Timespec) (node : List Node) :
    (handleSetCmd now node).run m = some (RedisImpl.handleSetCmd now .ok node m.store) := by
  rw [handleSetCmd, RedisImpl.handleSetCmd]
  cases validateSetCmd node with
  | none => rfl
  | some r => exact run_executeSetCmd hm now r.1 r.2

/-- Run without interruption, the calls of GET are GET. -/
theorem run_handleGetCmd (lc : Libc) (now : Timespec) (gnode : List Node) :
    (handleGetCmd lc now gnode).run m = some (RedisImpl.handleGetCmd lc now gnode m.store) := by
  rw [handleGetCmd, RedisImpl.handleGetCmd]
  cases isCmdValid gnode with
  | none => rfl
  | some content =>
    simp only
    cases createKeyNode now content 0 0 with
    | none => rfl
    | some key =>
      simp only [run, m.get_eq, get_store]
      cases he : entryAt m.map key.content with
      | none => rfl
      | some e =>
        simp only [Option.map_some, getFound, run_read hm he]
        by_cases hexp : hasKeyExpired lc key (e.mapValue Located.node).key = true
        · rw [if_pos hexp, if_pos hexp, run]
          rcases m.store.removeKey key compare with ⟨_ | _ | _, sm', kvp'⟩ <;> rfl
        · rw [if_neg hexp, if_neg hexp, run_read hm he]
          rcases e with ⟨k, ⟨v, dtype⟩, addr⟩
          cases dtype with
          | bulkStr => exact run_read hm he _
          | _ => rfl

end Handlers

end Calls

/-- The calls of a command. -/
def Command.calls (lc : Libc) (now : Timespec) : Command → Calls
  | get k => Calls.handleGetCmd lc now [.bulk k]
  | set c => Calls.handleSetCmd now c.args

/-- Run without interruption, the calls of a command are the command. -/
theorem Command.run_calls (lc : Libc) (now : Timespec) (cmd : Command) {m : Shared}
    (hm : SharedInv m) : (cmd.calls lc now).run m = some (cmd.exec lc now m.store) := by
  cases cmd with
  | get k => exact Calls.run_handleGetCmd hm lc now [.bulk k]
  | set c => exact Calls.run_handleSetCmd hm now c.args

end RedisImpl
