import Mathlib.Data.Set.Card
import RedisImpl.App.Loop
import RedisImpl.Cmd.Footprint
import RedisImpl.Cmd.Run

/-!
# The memory of the store, over the requests

A handler of `Cmd/InMemory.lean` gets the nodes of a request, and its reply is sent and freed.
`Turn.exec` is the same on the store of `Cmd/Execute.lean`, and `Turn.leaks` the number of blocks that
are left to no one: those of the handler, and the reply if it cannot be sent. The blocks are those of
the map, its nodes and the replies. The tree that a request is read into is no part of this memory: what
the lexer, `print_array` and `delete_array` leave of it is in `App/Leaks.lean`.

* `serve_linear`, `serveAll_linear`: one request, and any number of them.
* `store_life`: from `create_simple_map` to `delete_map`.
* `run_memory`: the same for commands, counted on the reference map.
-/

namespace RedisImpl
namespace InMemory

open Heap

/-- GET or SET, with the nodes behind the name of the command. -/
inductive Request where
  | get (args : List Node)
  | set (args : List Node)

/-- A request, what `clock_gettime` writes for its handler, and whether the reply can be sent. -/
structure Turn where
  request : Request
  now : Timespec
  sends : Bool

section Turns

variable (lc : Libc)

/-- The handler of the request. -/
def Turn.handle (t : Turn) (sm : Ptr) : Mem Ptr :=
  match t.request with
  | .get args => handleGetCmd lc t.now args sm
  | .set args => handleSetCmd t.now .ok args sm

/-- The handler, and the bytes that `send_resp_to_clnt` gets for its reply. `app_code` does not free
the reply if they cannot be sent. -/
def Turn.serve (t : Turn) (sm : Ptr) : Mem Bytes := do
  let rtnS ← t.handle lc sm
  if rtnS.isNone then return sentString errorMsg
  else
    let s ← charsAt rtnS
    if t.sends then
      HeapM.free rtnS
      return sentString s
    else return sentString s

/-- The requests, one after the other. -/
def serveAll (sm : Ptr) : List Turn → Mem (List Bytes)
  | [] => return []
  | t :: ts => do
    let s ← t.serve lc sm
    let ss ← serveAll sm ts
    return s :: ss

/-- The handler, on the store. -/
def Turn.exec (t : Turn) (sm : Store) : Option Bytes × Store :=
  match t.request with
  | .get args => RedisImpl.handleGetCmd lc t.now args sm
  | .set args => RedisImpl.handleSetCmd t.now .ok args sm

/-- The blocks that the handler leaves behind. -/
def Turn.handlerLeaks (t : Turn) (sm : Store) : Nat :=
  match t.request with
  | .get args => leaksGet lc t.now args sm
  | .set args => leaksSet t.now args sm

/-- The blocks that the handler and its reply leave behind. -/
def Turn.leaks (t : Turn) (sm : Store) : Nat :=
  t.handlerLeaks lc sm + if (t.exec lc sm).1.isSome && !t.sends then 1 else 0

/-- The replies to the requests and the store after them. -/
def replies : List Turn → Store → List (Option Bytes) × Store
  | [], sm => ([], sm)
  | t :: ts, sm =>
    let (r, sm) := t.exec lc sm
    let (rs, sm) := replies ts sm
    (r :: rs, sm)

/-- The blocks that the requests leave behind. -/
def leaks : List Turn → Store → Nat
  | [], _ => 0
  | t :: ts, sm => t.leaks lc sm + leaks ts (t.exec lc sm).2

/-- The bytes for a reply. -/
def message (r : Option Bytes) : Bytes := sentString (r.getD errorMsg)

end Turns

/-- A map that models the store, and `n` blocks that nothing points to. -/
def Holding (a : Nat) (sm : Store) (n : Nat) (C : Multiset (Nat × Obj Datum)) : Prop :=
  ∃ (l : Layout KeyLay ValueLay) (G : Multiset (Nat × Obj Datum)), l.sm = a ∧ Models l sm ∧
    G.card = n ∧ C = l.blocks + G

section Turns

variable {lc : Libc} {l : Layout KeyLay ValueLay} {sm : Store}

theorem sentString_append_zero (s : Bytes) : sentString (s ++ [0]) = sentString s := by
  unfold sentString
  by_cases h : 0 ∈ s
  · rw [cstr_append_of_mem h]
  · rw [cstr_append_zero h, cstr_eq_self h]

theorem handle_leaves (h : Models l sm) (t : Turn) :
    Linear l.blocks (t.handle lc (some l.sm))
      (Leaves l.sm (t.exec lc sm) (t.handlerLeaks lc sm)) := by
  unfold Turn.handle Turn.exec Turn.handlerLeaks
  cases t.request with
  | get args => exact handleGetCmd_leaves h lc t.now args
  | set args => exact handleSetCmd_leaves h t.now args

/-- One request. -/
theorem serve_linear (h : Models l sm) (t : Turn) :
    Linear l.blocks (t.serve lc (some l.sm)) fun s C =>
      s = message (t.exec lc sm).1 ∧ Holding l.sm (t.exec lc sm).2 (t.leaks lc sm) C := by
  unfold Turn.serve Turn.leaks
  refine Linear.bind (handle_leaves h t) ?_
  generalize t.exec lc sm = r
  generalize t.handlerLeaks lc sm = n
  rintro p C ⟨l', G, S, hsm, h', hn, hr, rfl⟩
  obtain ⟨reply, sm'⟩ := r
  cases hr with
  | null =>
    rw [if_pos Option.isNone_none]
    exact Linear.ret ⟨rfl, l', G, hsm, h', by simp [hn], add_zero _⟩
  | str a s =>
    rw [if_neg (by simp)]
    refine Linear.read (charsAt_reads (Multiset.mem_add.mpr (.inr (mem_pt.mpr rfl)))) ?_
    rw [sentString_append_zero]
    by_cases hs : t.sends = true
    · rw [if_pos hs]
      refine Linear.free (l'.blocks + G) (add_comm _ _) ?_
      exact Linear.ret ⟨rfl, l', G, hsm, h', by simp [hn, hs], rfl⟩
    · rw [if_neg hs]
      refine Linear.ret ⟨rfl, l', G + strBlock a s, hsm, h', ?_, add_assoc _ _ _⟩
      simp [hn, hs, strBlock]

/-- Any number of requests. -/
theorem serveAll_linear (h : Models l sm) (ts : List Turn) :
    Linear l.blocks (serveAll lc (some l.sm) ts) fun ss C =>
      ss = (replies lc ts sm).1.map message ∧
        Holding l.sm (replies lc ts sm).2 (leaks lc ts sm) C := by
  induction ts generalizing l sm with
  | nil => exact Linear.ret ⟨rfl, l, 0, rfl, h, Multiset.card_zero, (add_zero _).symm⟩
  | cons t ts ih =>
    refine Linear.bind (serve_linear h t) ?_
    rintro _ _ ⟨rfl, l₁, G₁, hsm₁, h₁, hn₁, rfl⟩
    rw [← hsm₁]
    refine Linear.call (ih h₁) G₁ rfl ?_
    rintro _ _ ⟨rfl, l₂, G₂, hsm₂, h₂, hn₂, rfl⟩
    refine Linear.ret ⟨rfl, l₂, G₁ + G₂, hsm₂, h₂, ?_, by abel⟩
    rw [Multiset.card_add, hn₁, hn₂]
    rfl

/-- The blocks of the map: its record and arrays, and for each entry the wrappers and the nodes. -/
theorem card_blocks (h : Models l sm) : (l.blocks.card : Int) = 3 + 7 * (sm.top + 1) := by
  have hslot : ∀ s : Slot KeyLay ValueLay, s.blocks.card = 7 := by
    intro s
    rw [Slot.blocks, Slot.wrappers, Slot.data]
    simp [card_key, card_value]
  have hslots : ∀ ss : List (Slot KeyLay ValueLay), (slotBlocks ss).card = 7 * ss.length := by
    intro ss
    induction ss with
    | nil => rfl
    | cons s ss ih =>
      rw [slotBlocks_cons, Multiset.card_add, hslot, ih, List.length_cons]
      omega
  have htop := h.stores.top
  rw [List.length_map, Layout.length_entries] at htop
  rw [Layout.blocks, Multiset.card_add, hslots]
  have harrays : (l.arrays : Multiset (Nat × Obj Datum)).card = 3 := by
    simp [Layout.arrays, arrayBlocks]
  rw [harrays]
  omega

theorem models_create {l : Layout KeyLay ValueLay} (hs : l.slots = []) (hc : l.capacity = 1) :
    Models l SimpleMap.create := by
  refine ⟨?_, by rw [hc]; rfl, by omega⟩
  rw [Layout.entries, hs]
  exact SimpleMap.stores_create

/-- `create_simple_map`, and requests on the new map. -/
def startAndServe (lc : Libc) (ts : List Turn) : Mem (Ptr × List Bytes) := do
  let sm ← createSimpleMap
  let ss ← serveAll lc sm ts
  return (sm, ss)

theorem startAndServe_linear (lc : Libc) (ts : List Turn) :
    Linear 0 (startAndServe lc ts) fun r C => ∃ a, r = (some a,
        (replies lc ts SimpleMap.create).1.map message) ∧
      Holding a (replies lc ts SimpleMap.create).2 (leaks lc ts SimpleMap.create) C := by
  have hcreate : Linear 0 (createSimpleMap : Mem Ptr) fun p C => ∃ l : Layout KeyLay ValueLay,
      p = some l.sm ∧ l.slots = [] ∧ l.capacity = 1 ∧ C = l.blocks := createSimpleMap_linear
  refine Linear.bind hcreate ?_
  rintro _ _ ⟨l, rfl, hs, hc, rfl⟩
  refine Linear.bind (serveAll_linear (models_create hs hc) ts) ?_
  rintro _ C ⟨rfl, hC⟩
  exact Linear.ret ⟨l.sm, rfl, hC⟩

/-- Whatever the requests are, no handler touches memory that is not there, the replies are those of
the store, and the blocks are those of the map and the ones that were left behind. `delete_map` frees
all of the map and nothing else. -/
theorem store_life (lc : Libc) (ts : List Turn) :
    ∃ a h h', startAndServe lc ts Heap.empty =
        some ((some a, (replies lc ts SimpleMap.create).1.map message), h) ∧
      (h.blocks.card : Int) = 3 + 7 * ((replies lc ts SimpleMap.create).2.top + 1) +
        leaks lc ts SimpleMap.create ∧
      deleteMap (some a) cleanUpKv h = some (true, h') ∧
      h'.blocks.card = leaks lc ts SimpleMap.create := by
  obtain ⟨_, h, hrun, a, rfl, l, G, rfl, hm, hn, hC⟩ := (startAndServe_linear lc ts).run blocks_empty
  obtain ⟨_, h', _, hdel, ⟨rfl, rfl⟩, hb⟩ := deleteMap_linear l cleanUpKv_linear h G hC
  refine ⟨l.sm, h, h', hrun, ?_, hdel, ?_⟩
  · rw [hC, Multiset.card_add, Nat.cast_add, card_blocks hm, hn]
  · rw [hb, zero_add, hn]

end Turns

/-! ## Commands -/

/-- The nodes of a command. -/
def request : Command → Request
  | .get k => .get [.bulk k]
  | .set c => .set c.args

/-- A command, its clock reading, and whether its reply can be sent. -/
abbrev Sending := (Timespec × Command) × Bool

def turn (c : Sending) : Turn := ⟨request c.1.2, c.1.1, c.2⟩

/-- The blocks that a command leaves behind: GET the wrappers of the entry that it drops, a conditional SET of a
key that is there the pairs that `get` makes, SET with an unsupported combination of options its pair with all of the nodes. -/
def handlerLeaks (lc : Libc) (now : Timespec) (m : RefMap) : Command → Nat
  | .get k => if k ≠ [] ∧ (m k).any (·.expired lc now) then 2 else 0
  | .set c =>
    if c.key = [] ∨ c.value = [] then 0
    else if ¬ c.Supported then 6
    else if c.nxxx.isSome ∧ (m c.key).isSome then if c.get.isSome then 2 else 1
    else 0

/-- The blocks that the commands leave behind. A reply that is not sent is left behind too. -/
def leaksOn (lc : Libc) : List Sending → RefMap → Nat
  | [], _ => 0
  | ((now, cmd), sends) :: cs, m =>
    handlerLeaks lc now m cmd + (if cmd.Valid ∧ sends = false then 1 else 0) +
      leaksOn lc cs (m.step lc now cmd).2

section Commands

variable {lc : Libc} {sm : Store} {m : RefMap}

theorem exec_turn (c : Sending) : (turn c).exec lc sm = c.1.2.exec lc c.1.1 sm := by
  obtain ⟨⟨now, _ | _⟩, sends⟩ := c <;> rfl

theorem leaksGet_holds (h : Holds sm m) (now : Timespec) (k : Bytes) :
    leaksGet lc now [.bulk k] sm = handlerLeaks lc now m (.get k) := by
  by_cases hk : k = []
  · simp [leaksGet, handlerLeaks, isCmdValid, hk, RedisImpl.createKeyNode]
  simp only [leaksGet, handlerLeaks, isCmdValid, createKeyNode_of_ne hk, h.get, ne_eq, hk,
    not_false_eq_true, true_and]
  cases m k with
  | none => rfl
  | some e => rfl

theorem leaksNxXx_holds (h : Holds sm m) (hr : Room sm) (c : SetCommand) (now : Timespec) (w : Bytes) :
    leaksNxXx sm (newPair c now) w = if (m c.key).isSome then 1 else 0 := by
  have hget : sm.get (newPair c now).key RedisImpl.compare = _ := h.get (newPair c now).key
  obtain ⟨sm', -, hset⟩ := h.set hr c.key ⟨c.value, 0, 0, now⟩
  have hset : sm.set .ok (newPair c now) RedisImpl.compare = _ := hset
  rw [leaksNxXx, hget, hset]
  simp only [newPair, Option.isSome_map]
  cases hm : m c.key with
  | none => simp [setResult]
  | some e => simp

theorem leaksSet_holds (h : Holds sm m) (hr : Room sm) (now : Timespec) (c : SetCommand) :
    leaksSet now c.args sm = handlerLeaks lc now m (.set c) := by
  have hget : ((sm.get (newPair c now).key RedisImpl.compare).isSome : Bool) = (m c.key).isSome := by
    rw [h.get]
    exact Option.isSome_map
  rw [leaksSet_args, leaksState_eq, handlerLeaks]
  simp only [leaksNxXx_holds h hr, hget, SetCommand.Supported]
  clear hget
  obtain ⟨k, v, _ | w, _ | g, _ | t⟩ := c <;> simp
  split_ifs <;> rfl

/-- The keys that the store has entries for. -/
theorem ncard_held (h : Holds sm m) : (Set.ncard {k | m k ≠ none} : Int) = sm.top + 1 := by
  obtain ⟨es, hst, hm⟩ := h
  let ks : List Bytes := es.map (SimpleMap.ident KeyNode.id)
  have hset : {k | m k ≠ none} = (ks.toFinset : Set Bytes) := by
    ext k
    rw [Finset.mem_coe, List.mem_toFinset]
    constructor
    · intro hk
      obtain ⟨e, he⟩ := Option.ne_none_iff_exists'.mp hk
      have hlk := hm k
      rw [he] at hlk
      exact List.mem_map.mpr ⟨_, Keyed.mem_of_lookup hlk, Keyed.id_of_lookup hlk⟩
    · intro hk
      obtain ⟨e, he, rfl⟩ := List.mem_map.mp hk
      intro hnone
      have hlk := hm (SimpleMap.ident KeyNode.id e)
      rw [Keyed.lookup_of_mem hst.distinct he, hnone] at hlk
      cases hlk
  rw [hset, Set.ncard_coe_finset, List.toFinset_card_of_nodup hst.distinct, hst.top, List.length_map]
  omega

theorem leaks_turn (h : Holds sm m) (hr : Room sm) (now : Timespec) (cmd : Command) (sends : Bool) :
    (turn ((now, cmd), sends)).leaks lc sm =
      handlerLeaks lc now m cmd + if cmd.Valid ∧ sends = false then 1 else 0 := by
  obtain ⟨sm', -, hx⟩ := h.step hr lc now cmd
  have hsome : (m.step lc now cmd).1.isSome = true ↔ cmd.Valid := by
    rw [RefMap.step.eq_def]
    by_cases hv : cmd.Valid
    · rw [if_neg (not_not_intro hv)]
      cases cmd <;> simp [hv]
    · rw [if_pos hv]
      simp [hv]
  rw [Turn.leaks, exec_turn, hx]
  have hhandler : (turn ((now, cmd), sends)).handlerLeaks lc sm = handlerLeaks lc now m cmd := by
    cases cmd with
    | get k => exact leaksGet_holds h now k
    | set c => exact leaksSet_holds h hr now c
  rw [hhandler]
  congr 1
  by_cases hv : cmd.Valid <;> simp [hsome, hv, turn]

/-- A run of commands, on the store and on the map that it holds. -/
theorem replies_turns (lc : Libc) {ks : List Bytes} (hks : ks.dedup.length < 2 ^ 30) (cs : List Sending)
    (h : Holds sm m) (hm : ∀ k, m k ≠ none → k ∈ ks) (hcs : ∀ k ∈ keys (cs.map Prod.fst), k ∈ ks) :
    (replies lc (cs.map turn) sm).1 = (m.steps lc (cs.map Prod.fst)).1 ∧
      Holds (replies lc (cs.map turn) sm).2 (m.steps lc (cs.map Prod.fst)).2 ∧
      leaks lc (cs.map turn) sm = leaksOn lc cs m := by
  induction cs generalizing sm m with
  | nil => exact ⟨rfl, h, rfl⟩
  | cons c cs ih =>
    obtain ⟨⟨now, cmd⟩, sends⟩ := c
    obtain ⟨hcmd, hcs⟩ := List.forall_mem_cons.mp hcs
    have hr := h.room hks hm
    obtain ⟨sm', h', hx⟩ := h.step hr lc now cmd
    obtain ⟨hrs, hend, hleaks⟩ := ih h' (RefMap.step_within hm hcmd) hcs
    have hexec : (turn ((now, cmd), sends)).exec lc sm = ((m.step lc now cmd).1, sm') := by
      rw [exec_turn, hx]
    refine ⟨?_, ?_, ?_⟩
    · simp only [List.map_cons, replies, RefMap.steps, hexec, hrs]
    · simpa only [List.map_cons, replies, RefMap.steps, hexec] using hend
    · simp only [List.map_cons, leaks, leaksOn, leaks_turn h hr, hexec, hleaks]

/-- A run of commands from the empty store: the replies are those of the reference map, and the
blocks are three for the map, seven for each key that is held, and those that `leaksOn` counts. -/
theorem run_memory (lc : Libc) (cs : List Sending)
    (hkeys : (keys (cs.map Prod.fst)).dedup.length < 2 ^ 30) :
    ∃ a h, startAndServe lc (cs.map turn) Heap.empty =
        some ((some a, (RefMap.steps lc (cs.map Prod.fst) fun _ => none).1.map message), h) ∧
      h.blocks.card = 3 + 7 * Set.ncard {k | (RefMap.steps lc (cs.map Prod.fst) fun _ => none).2 k ≠ none} +
        leaksOn lc cs fun _ => none := by
  obtain ⟨hrs, hend, hleaks⟩ := replies_turns lc hkeys cs holds_create (fun _ h => absurd rfl h)
    (fun _ h => h)
  obtain ⟨a, h, -, hrun, hcard, -, -⟩ := store_life lc (cs.map turn)
  refine ⟨a, h, hrs ▸ hrun, ?_⟩
  rw [hleaks, ← ncard_held hend] at hcard
  omega

end Commands

/-- `SET k v EX 3`, and ten seconds later `GET k`, whose reply cannot be sent. -/
def lateGet : List Sending :=
  [((⟨0, 0⟩, .set ⟨ascii "k", ascii "v", none, none,
      some (⟨ascii "EX", timeWord_ex⟩, ⟨ascii "3", by decide⟩)⟩), true),
    ((⟨10, 0⟩, .get (ascii "k")), false)]

/-- The wrappers of the entry and the reply are left behind. -/
theorem lateGet_memory : ∃ a h,
    startAndServe .exact (lateGet.map turn) Heap.empty =
      some ((some a, (RefMap.steps .exact (lateGet.map Prod.fst) fun _ => none).1.map message), h) ∧
    h.blocks.card =
      3 + 7 * Set.ncard {k | (RefMap.steps .exact (lateGet.map Prod.fst) fun _ => none).2 k ≠ none} +
        3 := by
  have hleaks : leaksOn .exact lateGet (fun _ => none) = 3 := by decide +kernel
  obtain ⟨a, h, hrun, hcard⟩ := run_memory .exact lateGet (by decide)
  rw [hleaks] at hcard
  exact ⟨a, h, hrun, hcard⟩

end InMemory
end RedisImpl
