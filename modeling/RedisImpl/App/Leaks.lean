import RedisImpl.App.Recv
import RedisImpl.Protocol.Leaks

/-!
# What a connection leaks

`app_code` on a socket where each `recv` may fail, and each call of `send_resp_to_clnt` too
(`sends`). After a reply that could not be sent the loop goes on without `delete_array`.

* `appCode_sent`: where all replies are sent, it is `app_code` as in `App/Recv.lean`.
* `appCode_leaks`: of the memory of the requests, an `ArrayNode` is left for each array in a request
  that was answered, all blocks of a request whose reply could not be sent, and some `ArrayNode`s of
  a request on which the lexer gave up. Nothing else is left, and nothing that was there is freed.

An uninitialised `current` that is used counts as a fault here: it points to nothing (`Dangling`).
-/

namespace RedisImpl

open Heap

namespace Node

mutual

/-- The number of arrays in a tree. -/
def arrays : Node → Nat
  | bulk _ => 0
  | array _ els => arraysList els + 1

def arraysList : List Node → Nat
  | [] => 0
  | e :: es => e.arrays + arraysList es

end

mutual

/-- The number of blocks of a tree: a bulk string takes up three, and an array two. -/
def size : Node → Nat
  | bulk _ => 3
  | array _ els => sizeList els + 2

def sizeList : List Node → Nat
  | [] => 0
  | e :: es => e.size + sizeList es

end

end Node

namespace Lay

mutual

theorem length_nodes (x : Stray) (t : Lay false) (hc : t.shape.spoiled = false) :
    (t.nodes x).length = t.shape.toNode.arrays := by
  cases t with
  | bulk p node content bytes => rfl
  | array p node size els =>
    rw [nodes, List.length_cons, shape, Shape.toNode, Node.arrays, length_nodesList x els hc]
  | void p node content type => cases hc
  | stray h => cases h

theorem length_nodesList (x : Stray) (ts : List (Lay false))
    (hc : Shape.spoiledList (shapes ts) = false) :
    (nodesList x ts).length = Node.arraysList (Shape.toNodes (shapes ts)) := by
  cases ts with
  | nil => rfl
  | cons t ts =>
    simp only [shapes, Shape.spoiledList, Bool.or_eq_false_iff] at hc
    rw [nodesList, List.length_append, shapes, Shape.toNodes, Node.arraysList,
      length_nodes x t hc.1, length_nodesList x ts hc.2]

end

mutual

theorem length_blocks_eq (x : Stray) (next prev : Ptr) (t : Lay false)
    (hc : t.shape.spoiled = false) : (t.blocks x next prev).length = t.shape.toNode.size := by
  cases t with
  | bulk p node content bytes => rfl
  | array p node size els =>
    rw [blocks, List.length_cons, List.length_cons, shape, Shape.toNode, Node.size,
      length_blocksList_eq x none (some p) els hc]
  | void p node content type => cases hc
  | stray h => cases h

theorem length_blocksList_eq (x : Stray) (next prev : Ptr) (ts : List (Lay false))
    (hc : Shape.spoiledList (shapes ts) = false) :
    (blocksList x next prev ts).length = Node.sizeList (Shape.toNodes (shapes ts)) := by
  cases ts with
  | nil => rfl
  | cons t ts =>
    simp only [shapes, Shape.spoiledList, Bool.or_eq_false_iff] at hc
    rw [blocksList, List.length_append, shapes, Shape.toNodes, Node.sizeList,
      length_blocks_eq x _ _ t hc.1, length_blocksList_eq x _ _ ts hc.2]

end

end Lay

/-! ## A `void` -/

section Spoiled

variable {w : World} {x : Stray} {F : List (Nat × Cell)}

/-- `print_array` on a chain with a `void`. -/
theorem printLoop_spoiled {fuel : Nat} {prev : Ptr} {ts : List (Lay false)}
    (hc : Shape.spoiledList (Lay.shapes ts) = true) (hf : Lay.countList ts ≤ fuel)
    (ho : Owns w.heap (Lay.blocksList x none prev ts ++ F)) :
    ∃ e, printLoop fuel (Lay.head x none ts) w = .error e := by
  induction fuel generalizing ts prev F with
  | zero =>
    cases ts with
    | nil => cases hc
    | cons t ts => exact ⟨.timeout, rfl⟩
  | succ fuel ih =>
    cases ts with
    | nil => cases hc
    | cons t ts =>
      simp only [Lay.shapes, Shape.spoiledList, Bool.or_eq_true] at hc
      rw [Lay.blocksList, List.append_assoc] at ho
      have hrest := ho.perm List.perm_append_comm
      rw [List.append_assoc] at hrest
      cases t with
      | bulk p node content bytes =>
        simp only [Lay.countList, Lay.count] at hf
        obtain ⟨e, he⟩ := ih (hc.resolve_left Bool.false_ne_true) (by omega) hrest
        exact ⟨e, (printLoop_bulk fuel ho).trans he⟩
      | array p node size els =>
        simp only [Lay.countList, Lay.count] at hf
        have hels := owns_array_els ho
        have hrun := printLoop_array fuel ho
        cases hs : Shape.spoiledList (Lay.shapes els) with
        | true =>
          obtain ⟨e, he⟩ := ih hs (by omega) hels
          exact ⟨e, hrun.trans (M.bind_error he)⟩
        | false =>
          have hts := hc.resolve_left (by rw [Lay.shape, Shape.spoiled, hs]; decide)
          obtain ⟨e, he⟩ := ih hts (by omega) hrest
          exact ⟨e, hrun.trans ((M.bind_ok (printLoop_list (by omega) hs hels)).trans he)⟩
      | void p node content type =>
        -- its `BaseNode` is taken for the element behind it
        have hb : w.heap.load content = some (.base ⟨type, none, none⟩) :=
          ho.load_of_mem (by simp [Lay.blocks])
        have hrun := printLoop_array fuel ho
        cases fuel with
        | zero => exact ⟨.timeout, hrun.trans rfl⟩
        | succ fuel => exact ⟨.misread, hrun.trans (M.bind_error (M.bind_error (nodeOf_base hb)))⟩
      | stray h => cases h

/-- A tree that was printed has no `void`. -/
theorem printArray_clean {t : Lay false} {r : Unit × World}
    (ho : Owns w.heap (t.blocks x none none ++ F))
    (hr : printArray (some (t.ptr x)) w = .ok r) : t.shape.spoiled = false := by
  by_contra hc
  obtain ⟨hf, hchain⟩ := owns_chain ho
  have hs : Shape.spoiledList (Lay.shapes [t]) = true := by
    simp only [Lay.shapes, Shape.spoiledList, Bool.or_false]
    exact Bool.of_not_eq_false hc
  obtain ⟨e, he⟩ := printLoop_spoiled hs hf hchain
  have herr : printArray (some (t.ptr x)) w = .error e := he
  rw [herr] at hr
  cases hr

end Spoiled

/-- What the lexer leaves, if it returns. -/
theorem lexer_fills (x : Stray) {unset : World → Ptr} (hu : Dangling unset) {w v : World} {p : Ptr}
    {F : List (Nat × Cell)} (hf : Fills w.heap F) (hr : lexer unset w = .ok (p, v)) :
    (∃ t : Lay false, p = some (t.ptr x) ∧ Fills v.heap (t.blocks x none none ++ F)) ∨
      p = none ∧ ∃ M, (∀ b ∈ M, b.2.IsArrayNode) ∧ Fills v.heap (M ++ F) := by
  have hexact := lexer_exact x unset hf
  have hlexer : Refines x unset w (readRequest false w.inp) (lexer unset w) :=
    lexer_refines (fun h => absurd h Bool.false_ne_true) w
  have hrefines := hlexer F none none hf.owns
  rw [hr] at hexact hrefines
  generalize readRequest false w.inp = o at hexact hrefines
  cases hexact with
  | done t h rest hf' => exact .inl ⟨t, rfl, hf'⟩
  | reject v M hM hf' => exact .inr ⟨rfl, M, hM, hf'⟩
  | fault r =>
    obtain ⟨e, he⟩ := hrefines rfl hu
    cases he

namespace Sent

variable {σ : Type}

/-- A connection: the socket, the state of the server, what was given to each call of
`send_resp_to_clnt` and whether it was sent, and for each call of `parse_command` the tree and
whether the reply was sent. -/
structure Conn (σ : Type) where
  sock : Recv.Sock
  state : σ
  sends : List (Bytes × Bool)
  calls : List (List Node × Bool)

section Functions

variable (env : Recv.RecvEnv) (sends : Nat → Bool) (unset : Heap Cell → Ptr)
  (parse : List Node → σ → Except Fault (Option Bytes × σ))

/-- The branch of `app_code` for a `*`; the Boolean is whether the loop goes on. What the first send
returns is not looked at. -/
def serveRequest (c : Conn σ) : Except Fault (Bool × Conn σ) := do
  let sent := sends c.sends.length
  let (array, s) ← Recv.lexer env unset c.sock
  if array.isNone then
    .ok (false, { c with sock := s, sends := c.sends ++ [(sentString errorMsg, sent)] })
  else
    let (_, s) ← Recv.lift (printArray array) s
    let (node, s) ← Recv.lift (view array) s
    let (rtnS, state) ← parse node c.state
    let c := { c with
      state
      sends := c.sends ++ [(sentString (rtnS.getD errorMsg), sent)]
      calls := c.calls ++ [(node, sent)] }
    if sent then
      let (_, s) ← Recv.lift (deleteArray array) s
      .ok (true, { c with sock := s })
    else .ok (true, { c with sock := s })

/-- The loop of `app_code`. -/
def appLoop : Nat → Conn σ → Except Fault (Conn σ)
  | 0, _ => .error .timeout
  | fuel + 1, c => do
    let (got, s) ← Recv.recvRespFmClnt env 1 3 c.sock
    match got with
    | none => .ok { c with sock := s }
    | some [] => .ok { c with sock := s }
    | some (buff :: _) =>
      if buff = 42 then do
        let (goesOn, c) ← serveRequest env sends unset parse { c with sock := s }
        if goesOn then appLoop fuel c else .ok c
      else appLoop fuel { c with sock := s }

/-- `app_code` on a new connection. -/
def appCode (heap : Heap Cell) (inp : Bytes) (state : σ) : Except Fault (Conn σ) :=
  appLoop env sends unset parse (inp.length + 1) ⟨⟨⟨heap, inp⟩, 0⟩, state, [], []⟩

end Functions

/-! ## Where all replies are sent -/

/-- The connection as in `App/Recv.lean`. -/
def Conn.plain (c : Conn σ) : Recv.Conn σ :=
  ⟨c.sock, c.state, c.sends.flatMap Prod.fst, c.calls.map Prod.fst⟩

section Plain

variable (env : Recv.RecvEnv) {sends : Nat → Bool} (unset : Heap Cell → Ptr)
  (parse : List Node → σ → Except Fault (Option Bytes × σ))

theorem serveRequest_sent (hs : ∀ k, sends k = true) (c : Conn σ) :
    (serveRequest env sends unset parse c).map (fun r => (r.1, r.2.plain)) =
      Recv.serveRequest env unset parse c.plain := by
  simp only [serveRequest, Recv.serveRequest, Conn.plain, hs, if_true, bind, Except.bind]
  cases Recv.lexer env unset c.sock with
  | error e => rfl
  | ok p =>
    obtain ⟨array, s⟩ := p
    cases array with
    | none => simp [Except.map, List.flatMap_append]
    | some a =>
      simp only [Option.isNone_some, Bool.false_eq_true, if_false]
      cases Recv.lift (printArray (some a)) s with
      | error e => rfl
      | ok p =>
        simp only []
        cases Recv.lift (view (some a)) p.2 with
        | error e => rfl
        | ok q =>
          simp only []
          cases parse q.1 c.state with
          | error e => rfl
          | ok r =>
            simp only []
            cases Recv.lift (deleteArray (some a)) q.2 with
            | error e => rfl
            | ok u => simp [Except.map, List.flatMap_append]

theorem appLoop_sent (hs : ∀ k, sends k = true) (fuel : Nat) (c : Conn σ) :
    (appLoop env sends unset parse fuel c).map Conn.plain =
      Recv.appLoop env unset parse fuel c.plain := by
  induction fuel generalizing c with
  | zero => rfl
  | succ fuel ih =>
    simp only [appLoop, Recv.appLoop, bind, Except.bind]
    show _ = Except.bind (Recv.recvRespFmClnt env 1 3 c.sock) _
    cases Recv.recvRespFmClnt env 1 3 c.sock with
    | error e => rfl
    | ok p =>
      obtain ⟨got, s⟩ := p
      cases got with
      | none => rfl
      | some bytes =>
        cases bytes with
        | nil => rfl
        | cons buff more =>
          by_cases hstar : buff = 42
          · have hserve := serveRequest_sent env unset parse hs { c with sock := s }
            simp only [Except.bind, hstar, if_true]
            show _ = Except.bind (Recv.serveRequest env unset parse (Conn.plain { c with sock := s })) _
            rw [← hserve]
            cases serveRequest env sends unset parse { c with sock := s } with
            | error e => rfl
            | ok r =>
              obtain ⟨goesOn, c'⟩ := r
              cases goesOn with
              | true => exact ih c'
              | false => rfl
          · simp only [Except.bind, hstar, if_false]
            exact ih { c with sock := s }

/-- Where no send fails, `app_code` does what it does in `App/Recv.lean`. -/
theorem appCode_sent (hs : ∀ k, sends k = true) (heap : Heap Cell) (inp : Bytes) (state : σ) :
    (appCode env sends unset parse heap inp state).map Conn.plain =
      Recv.appCode env unset parse heap inp state :=
  appLoop_sent env unset parse hs _ _

end Plain

/-! ## The blocks that are left -/

/-- What a request leaves for each array, and what it leaves if the reply could not be sent. -/
def arraysLeft (call : List Node × Bool) : Nat := if call.2 then Node.arraysList call.1 else 0

def blocksLeft (call : List Node × Bool) : Nat := if call.2 then 0 else Node.sizeList call.1

/-- Next to `F`, the connection has left the `ArrayNode`s `L` of requests that were answered, the
blocks `U` of the others, and the `ArrayNode`s `M` of one that the lexer gave up. -/
structure Left (F : List (Nat × Cell)) (c : Conn σ) (L U M : List (Nat × Cell)) : Prop where
  fills : Fills c.sock.world.heap (L ++ U ++ M ++ F)
  nodes : ∀ b ∈ L ++ M, b.2.IsArrayNode
  answered : L.length = (c.calls.map arraysLeft).sum
  unsent : U.length = (c.calls.map blocksLeft).sum

/-- What a computation that returned did first. -/
theorem of_bind_ok {α β : Type} {x : Except Fault α} {f : α → Except Fault β} {b : β}
    (h : (x >>= f) = .ok b) : ∃ a, x = .ok a ∧ f a = .ok b := by
  cases x with
  | error e => cases h
  | ok a => exact ⟨a, rfl, h⟩

theorem lift_ok {α : Type} {x : M α} {s s' : Recv.Sock} {a : α}
    (h : Recv.lift x s = .ok (a, s')) : ∃ v, x s.world = .ok (a, v) ∧ s' = { s with world := v } := by
  unfold Recv.lift at h
  cases hx : x s.world with
  | error e =>
    rw [hx] at h
    cases h
  | ok r =>
    rw [hx] at h
    cases h
    exact ⟨r.2, rfl, rfl⟩

theorem sum_concat {α : Type} (f : α → Nat) (as : List α) (a : α) :
    ((as ++ [a]).map f).sum = (as.map f).sum + f a := by
  simp

section Serve

variable {env : Recv.RecvEnv} {sends : Nat → Bool} {unset : Heap Cell → Ptr}
  {parse : List Node → σ → Except Fault (Option Bytes × σ)} {F L U : List (Nat × Cell)}
  {c c' : Conn σ}

/-- The lexer on the socket. -/
theorem lexer_left (hu : Dangling (Recv.unsetOf unset)) {s s' : Recv.Sock} {p : Ptr}
    {G : List (Nat × Cell)} (hf : Fills s.world.heap G)
    (hr : Recv.lexer env unset s = .ok (p, s')) :
    (∃ t : Lay false, p = some (t.ptr ⟨0, 0⟩) ∧
        Fills s'.world.heap (t.blocks ⟨0, 0⟩ none none ++ G)) ∨
      p = none ∧ ∃ M, (∀ b ∈ M, b.2.IsArrayNode) ∧ Fills s'.world.heap (M ++ G) := by
  have hacts := Recv.lexer_acts env unset s (Nat.lt_succ_self _)
  rw [hr] at hacts
  rcases hacts with ⟨b, -, -, hrun⟩ | ⟨-, b, -, hrun⟩
  · exact lexer_fills ⟨0, 0⟩ hu (w := ⟨s.world.heap, b ++ []⟩) (v := ⟨s'.world.heap, []⟩) hf
      (hrun (b.length + 1) [] (by simp))
  · exact lexer_fills ⟨0, 0⟩ hu (w := ⟨s.world.heap, b⟩) (v := ⟨s'.world.heap, []⟩) hf
      (hrun (b.length + 1) (Nat.lt_succ_self _))

/-- A request that was read. -/
theorem serveRequest_left (hu : Dangling (Recv.unsetOf unset)) (hl : Left F c L U [])
    {goesOn : Bool} (hr : serveRequest env sends unset parse c = .ok (goesOn, c')) :
    (goesOn = true ∧ c'.sends.length = c.sends.length + 1 ∧ c'.calls.length = c.calls.length + 1 ∧
      ∃ L' U', Left F c' L' U' []) ∨
    (goesOn = false ∧ c'.sends.length = c.sends.length + 1 ∧ c'.calls = c.calls ∧
      ∃ M, Left F c' L U M) := by
  obtain ⟨hfills, hnodes, hanswered, hunsent⟩ := hl
  obtain ⟨⟨array, s₁⟩, hlex, hr⟩ := of_bind_ok hr
  rcases lexer_left hu hfills hlex with ⟨t, rfl, ht⟩ | ⟨rfl, M, hM, ht⟩
  · obtain ⟨⟨_, s₂⟩, hprint, hr⟩ := of_bind_ok hr
    obtain ⟨⟨node, s₃⟩, hview, hr⟩ := of_bind_ok hr
    obtain ⟨⟨rtnS, state⟩, -, hr⟩ := of_bind_ok hr
    obtain ⟨v, hprint', rfl⟩ := lift_ok hprint
    -- `print_array` came to its end, so the tree has no `void`
    have hc := printArray_clean ht.owns hprint'
    rw [printArray_lay ht.owns hc] at hprint'
    cases hprint'
    obtain ⟨v, hview', rfl⟩ := lift_ok hview
    rw [view_lay ht.owns hc] at hview'
    cases hview'
    cases hs : sends c.sends.length with
    | true =>
      simp only [hs, if_true] at hr
      obtain ⟨⟨_, s₄⟩, hdel, hr⟩ := of_bind_ok hr
      obtain ⟨h, hdel', hleft⟩ := deleteArray_leaks ht hc
      obtain ⟨v, hv, rfl⟩ := lift_ok hdel
      rw [hdel'] at hv
      cases hv
      cases hr
      refine .inl ⟨rfl, List.length_append, List.length_append, t.nodes ⟨0, 0⟩ ++ L, U, ?_⟩
      refine ⟨hleft.perm ?_, ?_, ?_, ?_⟩
      · simp only [List.append_assoc]
        exact List.Perm.refl _
      · intro b hb
        rw [List.append_nil] at hb hnodes
        exact (List.mem_append.mp hb).elim (Lay.isArrayNode_of_mem_nodes _ t) (hnodes b)
      · rw [sum_concat, List.length_append, Lay.length_nodes _ t hc, hanswered, Nat.add_comm]
        rfl
      · rw [sum_concat, hunsent]
        rfl
    | false =>
      -- `continue` goes past `delete_array`
      simp only [hs, Bool.false_eq_true, if_false] at hr
      cases hr
      refine .inl ⟨rfl, List.length_append, List.length_append, L, t.blocks ⟨0, 0⟩ none none ++ U, ?_⟩
      refine ⟨ht.perm (List.perm_iff_count.mpr fun a => ?_), hnodes, ?_, ?_⟩
      · simp only [List.count_append, List.count_nil]
        omega
      · rw [sum_concat, hanswered]
        rfl
      · rw [sum_concat, List.length_append, Lay.length_blocks_eq _ _ _ t hc, hunsent, Nat.add_comm]
        rfl
  · -- the lexer gave up: an error message, and the end of the loop
    cases hr
    refine .inr ⟨rfl, List.length_append, rfl, M, ⟨ht.perm ?_, ?_, hanswered, hunsent⟩⟩
    · refine List.perm_iff_count.mpr fun a => ?_
      simp only [List.count_append, List.count_nil]
      omega
    · intro b hb
      rw [List.append_nil] at hnodes
      exact (List.mem_append.mp hb).elim (hnodes b) (hM b)

/-- The loop, while each request had its reply. -/
theorem appLoop_left (hu : Dangling (Recv.unsetOf unset)) {fuel : Nat} (hl : Left F c L U [])
    (hsends : c.sends.length = c.calls.length)
    (hr : appLoop env sends unset parse fuel c = .ok c') :
    ∃ L' U' M, Left F c' L' U' M ∧ (M = [] ∨ c'.sends.length = c'.calls.length + 1) := by
  induction fuel generalizing c L U with
  | zero => cases hr
  | succ fuel ih =>
    obtain ⟨⟨got, s⟩, hgot, hr⟩ := of_bind_ok hr
    have hheap : s.world.heap = c.sock.world.heap := by
      rcases Recv.recvRespFmClnt_spec env 1 3 c.sock with ⟨k, hs⟩ | ⟨got', rest, k, hs, -⟩
      · cases hgot.symm.trans hs
        rfl
      · cases hgot.symm.trans hs
        rfl
    have hl' : Left F { c with sock := s } L U [] :=
      ⟨hheap.symm ▸ hl.fills, hl.nodes, hl.answered, hl.unsent⟩
    cases got with
    | none =>
      cases hr
      exact ⟨L, U, [], hl', .inl rfl⟩
    | some bytes =>
      cases bytes with
      | nil =>
        cases hr
        exact ⟨L, U, [], hl', .inl rfl⟩
      | cons buff more =>
        by_cases hstar : buff = 42
        · simp only [hstar, if_true] at hr
          obtain ⟨⟨goesOn, c₁⟩, hserve, hr⟩ := of_bind_ok hr
          rcases serveRequest_left hu hl' hserve with
            ⟨rfl, hs, hcalls, L', U', hl₁⟩ | ⟨rfl, hs, hcalls, M, hl₁⟩
          · exact ih hl₁ (by rw [hs, hcalls]; exact congrArg (· + 1) hsends) hr
          · cases hr
            exact ⟨L, U, M, hl₁, .inr (by rw [hs, hcalls]; exact congrArg (· + 1) hsends)⟩
        · simp only [hstar, if_false] at hr
          exact ih hl' hsends hr

end Serve

/-- What was in `heap` is still there, and next to it only what the requests left: `L` of those that
were answered, `U` of the others, and `M` of one on which the lexer gave up, which takes one more
send. -/
def Leaks (heap : Heap Cell) (c : Conn σ) : Prop :=
  ∃ L U M : Multiset (Nat × Cell), c.sock.world.heap.blocks = L + U + M + heap.blocks ∧
    (∀ b ∈ L + M, b.2.IsArrayNode) ∧ Multiset.card L = (c.calls.map arraysLeft).sum ∧
    Multiset.card U = (c.calls.map blocksLeft).sum ∧
    (M = 0 ∨ c.sends.length = c.calls.length + 1)

/-- Whatever a client sends, and whatever `recv` and the sends do: where `app_code` ends without a
fault, an `ArrayNode` is left for each array in the requests that were answered, all blocks of the
other requests, and some `ArrayNode`s of one that was given up. -/
theorem appCode_leaks {env : Recv.RecvEnv} {sends : Nat → Bool} {unset : Heap Cell → Ptr}
    {parse : List Node → σ → Except Fault (Option Bytes × σ)}
    (hu : Dangling (Recv.unsetOf unset)) {heap : Heap Cell} {inp : Bytes} {state : σ} {c : Conn σ}
    (hr : appCode env sends unset parse heap inp state = .ok c) : Leaks heap c := by
  obtain ⟨F, hF⟩ := Fills.exists_self heap
  obtain ⟨L, U, M, hl, hM⟩ := appLoop_left hu (F := F) (L := []) (U := [])
    ⟨hF, fun b hb => absurd hb List.not_mem_nil, rfl, rfl⟩ rfl hr
  refine ⟨L, U, M, ?_, ?_, ?_, ?_, ?_⟩
  · rw [hF, hl.fills, Multiset.coe_add, Multiset.coe_add, Multiset.coe_add]
  · intro b hb
    rw [Multiset.coe_add] at hb
    exact hl.nodes b hb
  · rw [Multiset.coe_card, hl.answered]
  · rw [Multiset.coe_card, hl.unsent]
  · exact hM.imp_left fun h => by
      rw [h]
      rfl

/-- `SET k v`, `GET k` without a reply, and a part of `GET k`. -/
def brokenOff : Except Fault (Conn Session) :=
  appCode ⟨fun _ => .received 512, fun _ => true, fun _ => true⟩ (fun k => k ≠ 1)
    (fun h => some (h.size + 2)) (Session.parse .exact) Heap.empty
    (Node.encodeList (twoCommands.map Command.node) ++ brokenGet) start

theorem brokenOff_leaks : ∃ c, brokenOff = .ok c ∧ Leaks Heap.empty c ∧
    (c.calls.map arraysLeft).sum = 1 ∧ (c.calls.map blocksLeft).sum = 8 := by
  have hrun : brokenOff.map (fun c => ((c.calls.map arraysLeft).sum, (c.calls.map blocksLeft).sum)) =
      .ok (1, 8) := by
    decide +kernel
  cases hc : brokenOff with
  | error e =>
    rw [hc] at hrun
    cases hrun
  | ok c =>
    rw [hc] at hrun
    obtain ⟨h1, h2⟩ := Prod.mk.inj (Except.ok.inj hrun)
    exact ⟨c, rfl, appCode_leaks (fun _ => rfl) hc, h1, h2⟩

end Sent
end RedisImpl
