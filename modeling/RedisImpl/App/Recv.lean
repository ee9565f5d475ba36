import RedisImpl.App.Cut
import RedisImpl.Protocol.PrefixLexer

/-!
# `app_code` on a socket that fails

The loop that serves a connection, on a socket where each `recv` may fail or come short
(`Protocol/Recv.lean`).

* `appCode_part`: it does what it does for a client that sends a part of the input and no more, on a
  socket that does not fail.
* `appCode_requests`: so of a client's requests it serves some first ones, each of them once.
-/

namespace RedisImpl
namespace Recv

variable {σ : Type}

/-- A connection: the socket, the state of the server, the bytes that were sent, and the tree of each
call of `parse_command`. -/
structure Conn (σ : Type) where
  sock : Sock
  state : σ
  sent : Bytes
  calls : List (List Node)

section Functions

variable (env : RecvEnv) (unset : Heap Cell → Ptr)
  (parse : List Node → σ → Except Fault (Option Bytes × σ))

/-- The branch of `app_code` for a `*`; the Boolean is whether the loop goes on. All sends
succeed. -/
def serveRequest (c : Conn σ) : Except Fault (Bool × Conn σ) := do
  let (array, s) ← lexer env unset c.sock
  if array.isNone then
    .ok (false, { c with sock := s, sent := c.sent ++ sentString errorMsg })
  else
    let (_, s) ← lift (printArray array) s
    let (node, s) ← lift (view array) s
    let (rtnS, state) ← parse node c.state
    let sent := c.sent ++ sentString (rtnS.getD errorMsg)
    let (_, s) ← lift (deleteArray array) s
    .ok (true, { sock := s, state, sent, calls := c.calls ++ [node] })

/-- The loop of `app_code`. It ends when `recv_resp_fm_clnt` returns -1 or 0. -/
def appLoop : Nat → Conn σ → Except Fault (Conn σ)
  | 0, _ => .error .timeout
  | fuel + 1, c => do
    let (got, s) ← recvRespFmClnt env 1 3 c.sock
    match got with
    | none => .ok { c with sock := s }
    | some [] => .ok { c with sock := s }
    | some (buff :: _) =>
      if buff = 42 then do
        let (goesOn, c) ← serveRequest env unset parse { c with sock := s }
        if goesOn then appLoop fuel c else .ok c
      else appLoop fuel { c with sock := s }

/-- `app_code` on a new connection. -/
def appCode (heap : Heap Cell) (inp : Bytes) (state : σ) : Except Fault (Conn σ) :=
  appLoop env unset parse (inp.length + 1) ⟨⟨⟨heap, inp⟩, 0⟩, state, [], []⟩

end Functions

/-- What there is to see of a connection: the heap, the state of the server, the bytes that were sent,
and the trees for `parse_command`. -/
def Conn.seen (c : Conn σ) : Heap Cell × σ × Bytes × List (List Node) :=
  (c.sock.world.heap, c.state, c.sent, c.calls)

end Recv

def Conn.seen {σ : Type} (c : Conn σ) : Heap Cell × σ × Bytes × List (List Node) :=
  (c.world.heap, c.state, c.sent, c.calls.map Prod.fst)

namespace Recv

section Serve

variable {σ : Type} (env : RecvEnv) (unset : Heap Cell → Ptr)
  (parse : List Node → σ → Except Fault (Option Bytes × σ))

/-- What is done with a tree: the nodes, the reply, the state and the heap. -/
def serveTree (array : Ptr) (heap : Heap Cell) (state : σ) :
    Except Fault (List Node × Option Bytes × σ × Heap Cell) := do
  let (_, w) ← printArray array ⟨heap, []⟩
  let (node, w) ← view array w
  let (rtnS, state) ← parse node state
  let (_, w) ← deleteArray array w
  .ok (node, rtnS, state, w.heap)

variable {env unset} {array : Ptr} {heap : Heap Cell} {inp : Bytes}

theorem serveRequest_some (c : RedisImpl.Conn σ)
    (hlex : RedisImpl.lexer (unsetOf unset) c.world = .ok (array, ⟨heap, inp⟩))
    (ha : array.isNone = false) :
    RedisImpl.serveRequest (unsetOf unset) parse c = (serveTree parse array heap c.state).map
      fun (node, rtnS, state, heap) => (true, ⟨⟨heap, inp⟩, state,
        c.sent ++ sentString (rtnS.getD errorMsg), c.calls ++ [(node, inp)]⟩) := by
  simp only [RedisImpl.serveRequest, serveTree, hlex, ha, bind, Except.bind, Bool.false_eq_true,
    if_false]
  obtain ⟨r, hprint, hprint'⟩ := quiet_printArray array heap inp
  rw [hprint, hprint' []]
  cases r with
  | error e => rfl
  | ok p =>
    obtain ⟨r, hview, hview'⟩ := quiet_view array p.2 inp
    simp only [Except.map, hview, hview' []]
    cases r with
    | error e => rfl
    | ok q =>
      simp only []
      cases parse q.1 c.state with
      | error e => rfl
      | ok a =>
        obtain ⟨r, hdel, hdel'⟩ := quiet_deleteArray array q.2 inp
        simp only [hdel, hdel' []]
        cases r with
        | error e => rfl
        | ok u => rfl

theorem serve_some (c : Conn σ) {k : Nat}
    (hlex : lexer env unset c.sock = .ok (array, ⟨⟨heap, inp⟩, k⟩)) (ha : array.isNone = false) :
    serveRequest env unset parse c = (serveTree parse array heap c.state).map
      fun (node, rtnS, state, heap) => (true, ⟨⟨⟨heap, inp⟩, k⟩, state,
        c.sent ++ sentString (rtnS.getD errorMsg), c.calls ++ [node]⟩) := by
  simp only [serveRequest, serveTree, hlex, ha, bind, Except.bind, Bool.false_eq_true, if_false, lift]
  obtain ⟨r, hprint, hprint'⟩ := quiet_printArray array heap inp
  rw [hprint, hprint' []]
  cases r with
  | error e => rfl
  | ok p =>
    obtain ⟨r, hview, hview'⟩ := quiet_view array p.2 inp
    simp only [Except.map, hview, hview' []]
    cases r with
    | error e => rfl
    | ok q =>
      simp only []
      cases parse q.1 c.state with
      | error e => rfl
      | ok a =>
        obtain ⟨r, hdel, hdel'⟩ := quiet_deleteArray array q.2 inp
        simp only [hdel, hdel' []]
        cases r with
        | error e => rfl
        | ok u => rfl

end Serve

/-! ## The loop -/

section Loop

variable {σ : Type} (env : RecvEnv) (unset : Heap Cell → Ptr)
  (parse : List Node → σ → Except Fault (Option Bytes × σ))

/-- On the input `part`, a socket that does not fail shows what `r` does, whatever the fuel. -/
def SeenOn (r : Except Fault (Conn σ)) (heap : Heap Cell) (state : σ) (sent : Bytes)
    (trees : List (List Node)) (part : Bytes) : Prop :=
  ∀ f, part.length < f → ∀ calls : List (List Node × Bytes), calls.map Prod.fst = trees →
    (RedisImpl.appLoop (unsetOf unset) parse f ⟨⟨heap, part⟩, state, sent, calls⟩).map
      RedisImpl.Conn.seen = r.map Conn.seen

variable {env unset parse}

/-- What comes behind a byte that was taken. -/
theorem SeenOn.cons {r : Except Fault (Conn σ)} {heap : Heap Cell} {state : σ} {sent : Bytes}
    {trees : List (List Node)} {part : Bytes} (buff : UInt8)
    (h : ∀ f, part.length < f → ∀ calls : List (List Node × Bytes), calls.map Prod.fst = trees →
      (RedisImpl.appLoop (unsetOf unset) parse (f + 1)
        ⟨⟨heap, buff :: part⟩, state, sent, calls⟩).map RedisImpl.Conn.seen = r.map Conn.seen) :
    SeenOn unset parse r heap state sent trees (buff :: part) := by
  intro f hf calls hcalls
  rw [List.length_cons] at hf
  obtain ⟨f, rfl⟩ : ∃ g, f = g + 1 := ⟨f - 1, by omega⟩
  exact h f (by omega) calls hcalls

variable (env unset parse)

/-- The pass that begins with a `*`, if the loop behind it shows what it shows on a part. -/
theorem request_part (s : Sock) (state : σ) (sent : Bytes) (trees : List (List Node))
    (next : Conn σ → Except Fault (Conn σ))
    (ih : ∀ c : Conn σ, c.sock.world.inp.length ≤ s.world.inp.length →
      ∃ part, part <+: c.sock.world.inp ∧
        SeenOn unset parse (next c) c.sock.world.heap c.state c.sent c.calls part) :
    ∃ part, part <+: s.world.inp ∧ SeenOn unset parse
      ((serveRequest env unset parse ⟨s, state, sent, trees⟩).bind fun r =>
        if r.1 then next r.2 else .ok r.2) s.world.heap state sent trees (42 :: part) := by
  have hacts := lexer_acts env unset s (Nat.lt_succ_self _)
  cases hl : lexer env unset s with
  | error e =>
    rw [hl] at hacts
    obtain ⟨c, hc, hrun⟩ := hacts
    refine ⟨c, hc, .cons 42 fun f hf calls _ => ?_⟩
    have hlex := hrun f hf
    simp only [appLoop_star, RedisImpl.serveRequest, serveRequest, hlex, hl, bind, Except.bind]
    rfl
  | ok p =>
    obtain ⟨array, s'⟩ := p
    rw [hl] at hacts
    cases ha : array.isNone with
    | true =>
      -- refused, or broken off: either way the lexer does the same on the bytes `c` that it took
      obtain ⟨c, hc, hrun⟩ : ∃ c, c <+: s.world.inp ∧
          RedisImpl.lexer (unsetOf unset) ⟨s.world.heap, c⟩ = .ok (array, ⟨s'.world.heap, []⟩) := by
        rcases hacts with ⟨c, -, hc, hrun⟩ | ⟨-, c, hc, hrun⟩
        · refine ⟨c, hc ▸ List.prefix_append c _, ?_⟩
          have hnil := hrun (c.length + 1) [] (by simp)
          rwa [List.append_nil] at hnil
        · exact ⟨c, hc, hrun (c.length + 1) (Nat.lt_succ_self _)⟩
      refine ⟨c, hc, .cons 42 fun f hf calls hcalls => ?_⟩
      simp [appLoop_star, RedisImpl.serveRequest, serveRequest, hrun, hl, ha, bind, Except.bind,
        Except.map, RedisImpl.Conn.seen, Conn.seen, hcalls]
    | false =>
      rcases hacts with ⟨c, -, hc, hrun⟩ | ⟨hnone, -⟩
      · -- a tree: the part is what the lexer took, and then the part of the passes to come
        obtain ⟨⟨heap', inp'⟩, k⟩ := s'
        have hserve := serve_some parse ⟨s, state, sent, trees⟩ hl ha
        have hlex (r : Bytes) := hrun (c.length + r.length + 1) r (by simp)
        have hserve' (r : Bytes) (calls : List (List Node × Bytes)) :=
          serveRequest_some parse ⟨⟨s.world.heap, c ++ r⟩, state, sent, calls⟩ (hlex r) ha
        cases ht : serveTree parse array heap' state with
        | error e =>
          refine ⟨c, hc ▸ List.prefix_append c _, .cons 42 fun f hf calls _ => ?_⟩
          have hfault := hserve' [] calls
          rw [List.append_nil] at hfault
          simp only [appLoop_star, hserve, hfault, ht]
          rfl
        | ok q =>
          obtain ⟨node, rtnS, state', heap''⟩ := q
          have hle : inp'.length ≤ s.world.inp.length := by
            rw [hc, List.length_append]
            exact Nat.le_add_left _ _
          obtain ⟨part, hpart, hseen⟩ := ih ⟨⟨⟨heap'', inp'⟩, k⟩, state',
            sent ++ sentString (rtnS.getD errorMsg), trees ++ [node]⟩ hle
          refine ⟨c ++ part, hc ▸ (List.prefix_append_right_inj c).mpr hpart,
            .cons 42 fun f hf calls hcalls => ?_⟩
          rw [List.length_append] at hf
          have hnext := hseen f (by omega) (calls ++ [(node, part)]) (by simp [hcalls])
          rw [appLoop_star, hserve', hserve]
          simp only [ht, Except.map, Except.bind, if_true]
          exact hnext
      · rw [hnone] at ha
        cases ha

theorem appLoop_part {fuel : Nat} (c : Conn σ) (hf : c.sock.world.inp.length < fuel) :
    ∃ part, part <+: c.sock.world.inp ∧ SeenOn unset parse (appLoop env unset parse fuel c)
      c.sock.world.heap c.state c.sent c.calls part := by
  induction fuel generalizing c with
  | zero => exact absurd hf (Nat.not_lt_zero _)
  | succ fuel ih =>
    obtain ⟨⟨⟨heap, inp⟩, k₀⟩, state, sent, trees⟩ := c
    -- the end of the input
    have hend (s : Sock) (hs : s.world.heap = heap) :
        SeenOn unset parse (.ok ⟨s, state, sent, trees⟩) heap state sent trees [] := by
      intro f hf calls hcalls
      obtain ⟨f, rfl⟩ : ∃ g, f = g + 1 := ⟨f - 1, by omega⟩
      simp only [RedisImpl.appLoop, Except.map, RedisImpl.Conn.seen, Conn.seen, hcalls, hs]
    rcases recvRespFmClnt_spec env 1 3 ⟨⟨heap, inp⟩, k₀⟩ with
      ⟨k, hr⟩ | ⟨got, rest, k, hr, n, hn, hgot, hrest⟩
    · refine ⟨[], List.nil_prefix, ?_⟩
      simp only [appLoop, hr, bind, Except.bind]
      exact hend ⟨⟨heap, inp⟩, k⟩ rfl
    · simp only [appLoop, hr, bind, Except.bind]
      cases got with
      | nil => exact ⟨[], List.nil_prefix, hend ⟨⟨heap, rest⟩, k⟩ rfl⟩
      | cons buff more =>
        -- one byte was asked for
        obtain rfl : inp = buff :: rest := by
          cases inp with
          | nil => simp at hgot
          | cons b bs =>
            obtain rfl : n = 1 := by
              rcases Nat.le_one_iff_eq_zero_or_eq_one.mp hn with rfl | rfl
              · simp at hgot
              · rfl
            simp only [List.take_succ_cons, List.drop_succ_cons, List.drop_zero,
              List.cons.injEq] at hgot hrest
            rw [hgot.1, hrest]
        have hlen : rest.length < fuel := by
          simp only [List.length_cons] at hf
          omega
        by_cases hstar : buff = 42
        · subst hstar
          obtain ⟨part, hpart, hseen⟩ := request_part env unset parse ⟨⟨heap, rest⟩, k⟩
            state sent trees (appLoop env unset parse fuel) fun c hc => ih c (lt_of_le_of_lt hc hlen)
          exact ⟨42 :: part, (List.prefix_cons_inj 42).mpr hpart, hseen⟩
        · obtain ⟨part, hpart, hseen⟩ := ih ⟨⟨⟨heap, rest⟩, k⟩, state, sent, trees⟩ hlen
          refine ⟨buff :: part, (List.prefix_cons_inj buff).mpr hpart,
            .cons buff fun f hf calls hcalls => ?_⟩
          simp only [RedisImpl.appLoop, if_neg hstar]
          exact hseen f hf calls hcalls

end Loop

/-- Whatever `recv` does, for any input: `app_code` does what it does, on a socket that does not fail,
for a client that sends a part of the input and closes the connection. It ends with the same heap,
state, sent bytes and calls of `parse_command`, or with the same fault. -/
theorem appCode_part {σ : Type} (env : RecvEnv) (unset : Heap Cell → Ptr)
    (parse : List Node → σ → Except Fault (Option Bytes × σ)) (heap : Heap Cell) (inp : Bytes)
    (state : σ) :
    ∃ part, part <+: inp ∧ (appCode env unset parse heap inp state).map Conn.seen =
      (RedisImpl.appCode (unsetOf unset) parse heap part state).map RedisImpl.Conn.seen := by
  obtain ⟨part, hpart, hseen⟩ := appLoop_part env unset parse
    ⟨⟨⟨heap, inp⟩, 0⟩, state, [], []⟩ (Nat.lt_succ_self inp.length)
  exact ⟨part, hpart, (hseen _ (Nat.lt_succ_self _) [] rfl).symm⟩

/-! ## Requests -/

/-- A part of a stream of requests: some of them, and a part of the next one. -/
theorem exists_stream_of_prefix {ms : List (Bytes × Node)} (hm : Spaced ms) {broken : Bool}
    {rest part : Bytes} (hrest : Remainder broken rest) (hpart : part <+: stream ms ++ rest) :
    ∃ k broken' rest', k ≤ ms.length ∧ Remainder broken' rest' ∧
      part = stream (ms.take k) ++ rest' := by
  induction ms generalizing part with
  | nil =>
    obtain ⟨broken', hpart'⟩ := hrest.of_prefix hpart
    exact ⟨0, broken', part, Nat.zero_le _, hpart', rfl⟩
  | cons m ms ih =>
    obtain ⟨noise, t⟩ := m
    obtain ⟨⟨hnoise, ht⟩, hms⟩ := List.forall_mem_cons.mp hm
    have hstream : stream ((noise, t) :: ms) ++ rest = (noise ++ t.encode) ++ (stream ms ++ rest) := by
      simp [stream]
    rw [hstream] at hpart
    rcases List.prefix_or_prefix_of_prefix hpart (List.prefix_append (noise ++ t.encode) _) with
      hshort | ⟨p, rfl⟩
    · -- a part of the first request, or all of it
      rcases List.prefix_or_prefix_of_prefix hshort (List.prefix_append noise t.encode) with
        hsub | ⟨p, rfl⟩
      · exact ⟨0, false, part, Nat.zero_le _, .noise fun h => hnoise (hsub.subset h), rfl⟩
      · obtain ⟨more, hmore⟩ := (List.prefix_append_right_inj noise).mp hshort
        cases more with
        | nil =>
          rw [List.append_nil] at hmore
          subst hmore
          exact ⟨1, false, [], Nat.succ_le_succ (Nat.zero_le _), .noise List.not_mem_nil,
            by simp [stream]⟩
        | cons b more =>
          exact ⟨0, _, noise ++ p, Nat.zero_le _,
            .of_request hnoise ht hmore (List.cons_ne_nil b more), rfl⟩
    · obtain ⟨k, broken', rest', hk, hrest', rfl⟩ :=
        ih hms ((List.prefix_append_right_inj _).mp hpart)
      exact ⟨k + 1, broken', rest', Nat.succ_le_succ hk, hrest', by simp [stream]⟩

theorem trees_callsBefore (rest : Bytes) (ms : List (Bytes × Node)) :
    (callsBefore rest ms).map Prod.fst = ms.map fun m => [m.2] := by
  induction ms with
  | nil => rfl
  | cons m ms ih => rw [callsBefore, List.map_cons, List.map_cons, ih]

/-- `app_code` serves the requests `ms`: it calls `parse_command` for each of them, in order, and
sends the replies, and one error message behind them if `broken`. Only a fault in `parse_command`
keeps it from that. -/
def Serves {σ : Type} (parse : List Node → σ → Except Fault (Option Bytes × σ))
    (ms : List (Bytes × Node)) (broken : Bool) (state : σ) (r : Except Fault (Conn σ)) : Prop :=
  match answers parse (ms.map Prod.snd) state with
  | .error e => r = .error e
  | .ok (rs, state) => ∃ sock, r = .ok ⟨sock, state,
      wire rs ++ if broken then sentString errorMsg else [], ms.map fun m => [m.2]⟩

/-- Whatever `recv` does to a stream of requests, which may break off, `app_code` serves some first
ones of them. -/
theorem appCode_requests {σ : Type} (env : RecvEnv) (unset : Heap Cell → Ptr)
    (parse : List Node → σ → Except Fault (Option Bytes × σ)) {ms : List (Bytes × Node)}
    (hm : Spaced ms) {broken : Bool} {rest : Bytes} (hrest : Remainder broken rest)
    (heap : Heap Cell) (state : σ) :
    ∃ k broken', k ≤ ms.length ∧ Serves parse (ms.take k) broken' state
      (appCode env unset parse heap (stream ms ++ rest) state) := by
  obtain ⟨part, hpart, hseen⟩ := appLoop_part env unset parse
    ⟨⟨⟨heap, stream ms ++ rest⟩, 0⟩, state, [], []⟩ (Nat.lt_succ_self _)
  have hrun := hseen _ (Nat.lt_succ_self _) [] rfl
  obtain ⟨k, broken', rest', hk, hrest', rfl⟩ := exists_stream_of_prefix hm hrest hpart
  have hfirst : Spaced (ms.take k) := fun m h => hm m (List.mem_of_mem_take h)
  refine ⟨k, broken', hk, ?_⟩
  have hstops := hrest'.stops (unsetOf unset) parse hfirst heap state
  have hboth : (appCode env unset parse heap (stream ms ++ rest) state).map Conn.seen =
      (RedisImpl.appCode (unsetOf unset) parse heap (stream (ms.take k) ++ rest') state).map
        RedisImpl.Conn.seen := hrun.symm
  generalize appCode env unset parse heap (stream ms ++ rest) state = r at hboth ⊢
  unfold Stops at hstops
  unfold Serves
  cases ha : answers parse ((ms.take k).map Prod.snd) state with
  | error e =>
    rw [ha] at hstops
    rw [show RedisImpl.appCode _ _ _ _ _ = .error e from hstops] at hboth
    cases r with
    | error e' =>
      cases hboth
      rfl
    | ok c => cases hboth
  | ok a =>
    obtain ⟨rs, state'⟩ := a
    rw [ha] at hstops
    obtain ⟨w, hw⟩ := hstops
    rw [hw] at hboth
    cases r with
    | error e => cases hboth
    | ok c =>
      obtain ⟨sock, state'', sent, calls⟩ := c
      simp only [Except.map, Conn.seen, RedisImpl.Conn.seen, Except.ok.injEq, Prod.mk.injEq,
        trees_callsBefore] at hboth
      obtain ⟨-, rfl, rfl, rfl⟩ := hboth
      exact ⟨sock, rfl⟩

/-- The fortieth `recv` fails for good: it is one for the second request. -/
def resetEnv : RecvEnv where
  recv k := if k = 39 then .error (.other 104) else .received 512
  allocated _ := true
  slept _ := true

/-- `SET k v` and `GET k`, with CRLF before the second one. -/
def twoRequests : List (Bytes × Node) :=
  [([], (Command.set setKV).node), ([13, 10], (Command.get (ascii "k")).node)]

theorem reset_requests : ∃ k broken, k ≤ twoRequests.length ∧
    Serves (Session.parse .exact) (twoRequests.take k) broken start
      (appCode resetEnv (fun _ => none) (Session.parse .exact) Heap.empty
        (stream twoRequests ++ []) start) := by
  refine appCode_requests resetEnv _ _ ?_ (.noise List.not_mem_nil) Heap.empty start
  intro m h
  rcases List.mem_cons.mp h with rfl | h
  · exact ⟨by decide, isRequest_twoCommands _ List.mem_cons_self⟩
  · obtain rfl := List.mem_singleton.mp h
    exact ⟨by decide, isRequest_twoCommands (.get (ascii "k"))
      (List.mem_cons_of_mem _ List.mem_cons_self)⟩

end Recv
end RedisImpl
