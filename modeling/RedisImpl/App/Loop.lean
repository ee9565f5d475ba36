import RedisImpl.App.Session
import RedisImpl.Protocol.RoundTrip

/-!
# `app_code`

The loop that serves a connection. What `parse_command` does is a parameter, `parse`: from the tree
of a request and a state of the server it gives the reply and the state after it.

* `appCode_served`: on the encodings of any trees that a client may send, one after the other, the
  loop calls `parse_command` once for each tree, in order, and each time exactly the encodings of
  the later trees are still unread.
* `appCode_commands`: with the `parse_command` of the server, the bytes that are sent for GET and SET
  requests are the replies of the reference map.
-/

namespace RedisImpl

/-- The message that a client gets instead of a reply. -/
def errorMsg : Bytes := ascii "An error occured while parsing the command."

/-- The `strlen(s)+1` bytes that are sent of the C string `s`: the NUL at its end is sent too. -/
def sentString (s : Bytes) : Bytes := cstr s ++ [0]

variable {σ : Type}

/-- A connection: the memory and the bytes that the client has still to send, the state of the
server, the bytes that were sent, and for each call of `parse_command` the tree and the bytes that
were unread. -/
structure Conn (σ : Type) where
  world : World
  state : σ
  sent : Bytes
  calls : List (List Node × Bytes)

section Loop

variable (unset : World → Ptr) (parse : List Node → σ → Except Fault (Option Bytes × σ))

/-- The branch of `app_code` for a `*`; the Boolean is whether the loop goes on. All sends
succeed. -/
def serveRequest (c : Conn σ) : Except Fault (Bool × Conn σ) := do
  let (array, w) ← lexer unset c.world
  if array.isNone then
    .ok (false, { c with world := w, sent := c.sent ++ sentString errorMsg })
  else
    let (_, w) ← printArray array w
    let (node, w) ← view array w
    let calls := c.calls ++ [(node, w.inp)]
    let (rtnS, state) ← parse node c.state
    let sent := c.sent ++ sentString (rtnS.getD errorMsg)
    let (_, w) ← deleteArray array w
    .ok (true, { world := w, state, sent, calls })

/-- The loop of `app_code`. Bytes other than `*` are skipped. -/
def appLoop : Nat → Conn σ → Except Fault (Conn σ)
  | 0, _ => .error .timeout
  | fuel + 1, c =>
    match c.world.inp with
    | [] => .ok c
    | buff :: inp =>
      let c := { c with world := { c.world with inp } }
      if buff = 42 then do
        let (goesOn, c) ← serveRequest unset parse c
        if goesOn then appLoop fuel c else .ok c
      else appLoop fuel c

/-- `app_code` on a new connection. Every pass of the loop takes a byte. -/
def appCode (heap : Heap Cell) (inp : Bytes) (state : σ) : Except Fault (Conn σ) :=
  appLoop unset parse (inp.length + 1) ⟨⟨heap, inp⟩, state, [], []⟩

end Loop

/-- The trees that a request may be. -/
def Node.IsRequest : Node → Prop
  | .bulk _ => False
  | .array size els => (Node.array size els).Request

open Node

/-- The replies to requests, one after the other, and the state after them. -/
def answers (parse : List Node → σ → Except Fault (Option Bytes × σ)) :
    List Node → σ → Except Fault (List (Option Bytes) × σ)
  | [], s => .ok ([], s)
  | t :: ts, s => do
    let (r, s) ← parse [t] s
    let (rs, s) ← answers parse ts s
    .ok (r :: rs, s)

/-- The bytes that are sent for replies. -/
def wire (rs : List (Option Bytes)) : Bytes := rs.flatMap fun r => sentString (r.getD errorMsg)

/-- Each tree, with the encodings of the later ones. -/
def callsOf : List Node → List (List Node × Bytes)
  | [] => []
  | t :: ts => ([t], encodeList ts) :: callsOf ts

section Requests

variable (unset : World → Ptr) (parse : List Node → σ → Except Fault (Option Bytes × σ))

/-- One request: `parse_command` gets its tree, and what follows it is unread. -/
theorem serveRequest_encode {size : Int} {els : List Node} (hr : (Node.array size els).Request)
    (heap : Heap Cell) (rest : Bytes) (s : σ) (sent : Bytes) (calls : List (List Node × Bytes)) :
    ∃ heap', serveRequest unset parse
        ⟨⟨heap, (Node.array size els).encode.tail ++ rest⟩, s, sent, calls⟩ =
      (parse [.array size els] s).map fun (r, s') =>
        (true, ⟨⟨heap', rest⟩, s', sent ++ sentString (r.getD errorMsg),
          calls ++ [([.array size els], rest)]⟩) := by
  obtain ⟨p, h, hlex, hprint, hview, h', hdel⟩ := lexer_encode hr unset heap rest
  refine ⟨h', ?_⟩
  simp only [serveRequest, hlex, bind, Except.bind, Option.isNone_some, Bool.false_eq_true, if_false,
    hprint, hview]
  cases parse [.array size els] s with
  | error e => rfl
  | ok r =>
    simp only [hdel]
    rfl

theorem appLoop_encodeList {ts : List Node} (ht : ∀ t ∈ ts, t.IsRequest) {fuel : Nat}
    (hf : (encodeList ts).length < fuel) (heap : Heap Cell) (s : σ) (sent : Bytes)
    (calls : List (List Node × Bytes)) :
    ∃ heap', appLoop unset parse fuel ⟨⟨heap, encodeList ts⟩, s, sent, calls⟩ =
      (answers parse ts s).map fun (rs, s') =>
        ⟨⟨heap', []⟩, s', sent ++ wire rs, calls ++ callsOf ts⟩ := by
  induction ts generalizing fuel heap s sent calls with
  | nil =>
    cases fuel with
    | zero => exact absurd hf (Nat.not_lt_zero _)
    | succ fuel => exact ⟨heap, by simp [appLoop, encodeList, answers, Except.map, wire, callsOf]⟩
  | cons t ts ih =>
    cases t with
    | bulk content => exact absurd (ht _ List.mem_cons_self) id
    | array size els =>
      have hr : (Node.array size els).Request := ht _ List.mem_cons_self
      cases fuel with
      | zero => exact absurd hf (Nat.not_lt_zero _)
      | succ fuel =>
        have hhead : encodeList (.array size els :: ts) =
            42 :: ((Node.array size els).encode.tail ++ encodeList ts) := by
          rw [encodeList, encode]
          rfl
        have hpass : appLoop unset parse (fuel + 1)
              ⟨⟨heap, encodeList (.array size els :: ts)⟩, s, sent, calls⟩ =
            (serveRequest unset parse
              ⟨⟨heap, (Node.array size els).encode.tail ++ encodeList ts⟩, s, sent, calls⟩).bind
                fun r => if r.1 then appLoop unset parse fuel r.2 else .ok r.2 := by
          rw [hhead, appLoop]
          rfl
        obtain ⟨heap₁, hserve⟩ := serveRequest_encode unset parse hr heap (encodeList ts) s sent calls
        rw [hpass, hserve]
        cases hp : parse [.array size els] s with
        | error e => exact ⟨heap, by simp [answers, hp, bind, Except.bind, Except.map]⟩
        | ok r =>
          obtain ⟨r, s'⟩ := r
          rw [hhead, List.length_cons, List.length_append] at hf
          have hfuel : (encodeList ts).length < fuel := by omega
          obtain ⟨heap₂, hrest⟩ := ih (fun t h => ht t (List.mem_cons_of_mem _ h)) hfuel heap₁ s'
            (sent ++ sentString (r.getD errorMsg)) (calls ++ [([.array size els], encodeList ts)])
          refine ⟨heap₂, ?_⟩
          simp only [Except.map, Except.bind, if_true, hrest, answers, hp, bind]
          cases answers parse ts s' with
          | error e => rfl
          | ok rs => simp [wire, callsOf]

theorem appCode_encodeList {ts : List Node} (ht : ∀ t ∈ ts, t.IsRequest) (heap : Heap Cell)
    (s : σ) :
    ∃ heap', appCode unset parse heap (encodeList ts) s =
      (answers parse ts s).map fun (rs, s') => ⟨⟨heap', []⟩, s', wire rs, callsOf ts⟩ :=
  appLoop_encodeList unset parse ht (Nat.lt_succ_self _) heap s [] []

/-- On the encodings of the trees `ts`, the loop calls `parse_command` once for each tree, in order,
when exactly the encodings of the later trees are unread, and sends the replies one after the
other. Only a fault in `parse_command` keeps it from that. -/
def ServedInOrder (ts : List Node) (heap : Heap Cell) (s : σ) : Prop :=
  match answers parse ts s with
  | .error e => appCode unset parse heap (encodeList ts) s = .error e
  | .ok (rs, s') => ∃ heap', appCode unset parse heap (encodeList ts) s =
      .ok ⟨⟨heap', []⟩, s', wire rs, callsOf ts⟩

/-- Every sequence of requests is served. -/
theorem appCode_served {ts : List Node} (ht : ∀ t ∈ ts, t.IsRequest) (heap : Heap Cell) (s : σ) :
    ServedInOrder unset parse ts heap s := by
  obtain ⟨heap', h⟩ := appCode_encodeList unset parse ht heap s
  unfold ServedInOrder
  rw [h]
  cases answers parse ts s with
  | error e => rfl
  | ok rs => exact ⟨heap', rfl⟩

end Requests

/-- `SET k v` and `GET k`. -/
def twoCommands : List Command := [.set setKV, .get (ascii "k")]

theorem isRequest_twoCommands : ∀ cmd ∈ twoCommands, cmd.node.IsRequest := by
  simp [twoCommands, setKV, Command.node, Node.IsRequest, Node.Request, RequestList, SetCommand.args,
    optionArgs, getArgs, timeArgs, ascii]

theorem appCode_served_setGet : ∃ heap' s',
    appCode (fun _ => none) (Session.parse .exact) Heap.empty
        (encodeList (twoCommands.map Command.node)) start =
      .ok ⟨⟨heap', []⟩, s', wire [some ok, some (bulkString (ascii "v"))],
        callsOf (twoCommands.map Command.node)⟩ := by
  obtain ⟨s', hanswers⟩ : ∃ s', answers (Session.parse .exact) (twoCommands.map Command.node) start =
      .ok ([some ok, some (bulkString (ascii "v"))], s') := ⟨_, rfl⟩
  have hserved := appCode_served (fun _ => none) (Session.parse .exact)
    (List.forall_mem_map.mpr isRequest_twoCommands) Heap.empty start
  unfold ServedInOrder at hserved
  rw [hanswers] at hserved
  obtain ⟨heap', hrun⟩ := hserved
  exact ⟨heap', s', hrun⟩

/-! ## GET and SET -/

section Commands

variable {lc : Libc}

/-- The replies to commands, and the store after them. -/
theorem answers_commands (cmds : List Command) {s : Session} (hra : ∀ k, s.realloc k = .ok) :
    ∃ s', answers (Session.parse lc) (cmds.map Command.node) s =
        .ok ((runStore lc (s.jobs cmds) s.args.sm).1, s') ∧
      s'.args.sm = (runStore lc (s.jobs cmds) s.args.sm).2 := by
  induction cmds generalizing s with
  | nil => exact ⟨s, rfl, rfl⟩
  | cons cmd cmds ih =>
    obtain ⟨s', hrest, hsm⟩ := @ih (s.after (cmd.exec lc (s.clock s.time) s.args.sm).2) hra
    have hjobs : (s.after (cmd.exec lc (s.clock s.time) s.args.sm).2).jobs cmds =
        ({ s with time := s.time + 1 } : Session).jobs cmds := jobs_congr cmds rfl rfl
    rw [hjobs] at hrest hsm
    refine ⟨s', ?_, hsm⟩
    simp only [List.map_cons, answers, Session.parse_node (hra _), hrest, bind, Except.bind]
    rfl

/-- A client that sends GET and SET requests, with any options, to a server with an empty store: what
it gets is the replies of the reference map with expiry, each as a C string with its NUL, and the
store holds the reference map. -/
theorem appCode_commands (unset : World → Ptr) (heap : Heap Cell) {s : Session}
    (hsm : s.args.sm = SimpleMap.create) (hra : ∀ k, s.realloc k = .ok) {cmds : List Command}
    (hc : ∀ cmd ∈ cmds, cmd.node.IsRequest) (hkeys : (keys (s.jobs cmds)).dedup.length < 2 ^ 30) :
    ∃ c, appCode unset (Session.parse lc) heap (encodeList (cmds.map Command.node)) s = .ok c ∧
      c.world.inp = [] ∧ c.calls = callsOf (cmds.map Command.node) ∧
      c.sent = wire (RefMap.steps lc (s.jobs cmds) fun _ => none).1 ∧
      Holds c.state.args.sm (RefMap.steps lc (s.jobs cmds) fun _ => none).2 := by
  have hreq : ∀ t ∈ cmds.map Command.node, t.IsRequest := List.forall_mem_map.mpr hc
  obtain ⟨s', hanswers, hstore⟩ := @answers_commands lc cmds s hra
  obtain ⟨sm, hholds, hrun⟩ := holds_create.steps lc hkeys (s.jobs cmds) (fun _ h => absurd rfl h)
    (fun _ h => h)
  rw [hsm, hrun] at hanswers hstore
  obtain ⟨heap', hcode⟩ := appCode_encodeList unset (Session.parse lc) hreq heap s
  rw [hanswers] at hcode
  refine ⟨_, hcode, rfl, rfl, rfl, ?_⟩
  rw [show s'.args.sm = sm from hstore]
  exact hholds

theorem digits_three : ascii "3" ≠ [] ∧ (ascii "3").all isDigit = true := by decide

/-- `SET k v EX 3`, and `GET k` before and after the key has expired. -/
def expiring : List Command :=
  [.set ⟨ascii "k", ascii "v", none, none, some (⟨ascii "EX", timeWord_ex⟩, ⟨ascii "3", digits_three⟩)⟩,
    .get (ascii "k"), .get (ascii "k")]

/-- Two seconds pass from call to call. -/
def clocked : Session := { start with clock := fun k => ⟨2 * k, 0⟩ }

theorem appCode_commands_expiring :
    ∃ c, appCode (fun _ => none) (Session.parse .exact) Heap.empty
        (encodeList (expiring.map Command.node)) clocked = .ok c ∧
      c.sent = wire [some ok, some (bulkString (ascii "v")), some nil] := by
  have hc : ∀ cmd ∈ expiring, cmd.node.IsRequest := by
    simp [expiring, Command.node, Node.IsRequest, Node.Request, RequestList, SetCommand.args,
      optionArgs, getArgs, timeArgs, ascii]
  obtain ⟨c, hcode, -, -, hsent, -⟩ := @appCode_commands .exact (fun _ => none) Heap.empty clocked
    rfl (fun _ => rfl) expiring hc (by decide +kernel)
  exact ⟨c, hcode, hsent.trans (by decide +kernel)⟩

end Commands

end RedisImpl
