import RedisImpl.Lib.Chain
import RedisImpl.Lib.Triple
import RedisImpl.Server.Queue

/-!
# The queue of `queue.c` in memory

The functions of `queue.c` on the records of `queue.h`, where every `calloc` succeeds, and the proof
that they keep a doubly linked list: `runCalls_triple` says that any calls of `enqueue` and `dequeue`
give what the functions on lists of `Server/Queue.lean` give, and `calls_represent` what the memory
looks like after them.
-/

namespace RedisImpl

open Heap

/-- `ListNode`. -/
structure ListNode where
  prev : Ptr
  next : Ptr
  data : Ptr
  deriving DecidableEq

/-- `Queue`, without the pointers to its functions and the destructor for `delete_queue`. -/
structure Queue where
  front : Ptr
  rear : Ptr
  deriving DecidableEq

/-- What a block holds. -/
inductive Block where
  | queue (s : Queue)
  | node (n : ListNode)
  deriving DecidableEq

namespace Queue

/-- `*q`, for a `Queue*`. -/
def queueAt (q : Ptr) : HeapM Block Queue := do
  match ← HeapM.load q with
  | .queue s => return s
  | .node _ => failure

/-- `*p`, for a `ListNode*`. -/
def nodeAt (p : Ptr) : HeapM Block ListNode := do
  match ← HeapM.load p with
  | .node n => return n
  | .queue _ => failure

/-- `init_queue`. -/
def initQueue : HeapM Block Ptr := HeapM.alloc (.queue ⟨none, none⟩)

/-- `get_front`. -/
def getFront (q : Ptr) : HeapM Block Ptr := do
  if q.isNone then return none
  else
    let s ← queueAt q
    if s.front.isNone then return none
    else
      let front ← nodeAt s.front
      return front.data

/-- `get_rear`. -/
def getRear (q : Ptr) : HeapM Block Ptr := do
  if q.isNone then return none
  else
    let s ← queueAt q
    if s.rear.isNone then return none
    else
      let rear ← nodeAt s.rear
      return rear.data

/-- `enqueue`. -/
def enqueue (q data : Ptr) : HeapM Block Unit := do
  if q.isNone then return ()
  else
    let n ← HeapM.alloc (.node ⟨none, none, data⟩)
    if n.isNone then return ()
    else
      let s ← queueAt q
      if s.front.isNone ∧ s.rear.isNone then
        HeapM.store q (.queue ⟨n, n⟩)
        let first ← nodeAt n
        HeapM.store n (.node { first with prev := none })
      else
        let prev ← nodeAt s.rear
        HeapM.store s.rear (.node { prev with next := n })
        let last ← nodeAt n
        HeapM.store n (.node { last with prev := s.rear })
        HeapM.store q (.queue { s with rear := n })

/-- `dequeue`. -/
def dequeue (q : Ptr) : HeapM Block Ptr := do
  if q.isNone then return none
  else
    let s ← queueAt q
    if s.front.isNone then return none
    else if s.front = s.rear then
      HeapM.store q (.queue ⟨none, none⟩)
      let front ← nodeAt s.front
      HeapM.free s.front
      return front.data
    else
      let front ← nodeAt s.front
      let next := front.next
      HeapM.store s.front (.node { front with next := none })
      let second ← nodeAt next
      HeapM.store next (.node { second with prev := none })
      HeapM.store q (.queue { s with front := next })
      let front ← nodeAt s.front
      HeapM.free s.front
      return front.data

/-! ## The blocks of a queue -/

/-- A node with its links. -/
def link (prev next data : Ptr) : Block := .node ⟨prev, next, data⟩

/-- The blocks of the queue at `q` with the nodes `cs`, each at its address with its data. -/
def blocks (q : Nat) (cs : List (Nat × Ptr)) : List (Nat × Block) :=
  (q, .queue ⟨Chain.head none cs, Chain.last none cs⟩) :: Chain.blocks link none none cs

section Operations

variable {β : Type} {bs : List (Nat × Block)} {R : β → List (Nat × Block) → Prop} {q p : Nat}

theorem queueAt_triple {s : Queue} {f : Queue → HeapM Block β} (hm : (q, .queue s) ∈ bs)
    (hf : Triple bs (f s) R) : Triple bs (queueAt (some q) >>= f) R := by
  unfold queueAt
  rw [bind_assoc]
  exact Triple.load hm hf

theorem nodeAt_triple {n : ListNode} {f : ListNode → HeapM Block β} (hm : (p, .node n) ∈ bs)
    (hf : Triple bs (f n) R) : Triple bs (nodeAt (some p) >>= f) R := by
  unfold nodeAt
  rw [bind_assoc]
  exact Triple.load hm hf

end Operations

section Calls

variable {q : Nat} {cs : List (Nat × Ptr)}

/-- The front node and the rear node, of a queue that is not empty. -/
theorem front_mem (c : Nat × Ptr) (cs : List (Nat × Ptr)) :
    (c.1, .node ⟨none, Chain.head none cs, c.2⟩) ∈ blocks q (c :: cs) :=
  List.mem_cons_of_mem _ List.mem_cons_self

theorem rear_mem (cs : List (Nat × Ptr)) (c : Nat × Ptr) :
    (c.1, .node ⟨Chain.last none cs, none, c.2⟩) ∈ blocks q (cs ++ [c]) := by
  rw [blocks, Chain.blocks_concat]
  exact List.mem_cons_of_mem _ (List.mem_append_right _ List.mem_cons_self)

/-- The third block to the front. -/
theorem perm_third (a b c : Nat × Block) (bs : List (Nat × Block)) :
    (a :: b :: c :: bs).Perm (c :: a :: b :: bs) :=
  ((List.Perm.swap c b bs).cons a).trans (List.Perm.swap c a (b :: bs))

/-- The rear node, and the rest of the queue. -/
theorem rear_perm (cs : List (Nat × Ptr)) (c : Nat × Ptr) :
    (blocks q (cs ++ [c])).Perm ((c.1, link (Chain.last none cs) none c.2) ::
      (q, .queue ⟨Chain.head (some c.1) cs, some c.1⟩) ::
        Chain.blocks link none (some c.1) cs) := by
  rw [blocks, Chain.blocks_concat, Chain.last_concat, Chain.head_append]
  exact ((List.perm_append_singleton _ _).cons _).trans (List.Perm.swap _ _ _)

/-- With two or more nodes, `front` and `rear` are different. -/
theorem front_ne_rear {c d : Nat × Ptr} {cs : List (Nat × Ptr)}
    (hn : ((blocks q (c :: d :: cs)).map Prod.fst).Nodup) :
    Chain.head none (c :: d :: cs) ≠ Chain.last none (c :: d :: cs) := by
  intro he
  rw [blocks, List.map_cons, Chain.map_fst_blocks, List.map_cons] at hn
  have hc : c.1 ∈ (d :: cs).map Prod.fst := by
    apply List.mem_of_getLast?
    rw [← Chain.last_eq_getLast?]
    exact he.symm
  exact (List.nodup_cons.mp (List.nodup_cons.mp hn).2).1 hc

theorem initQueue_triple :
    Triple [] initQueue fun r bs => ∃ q, r = some q ∧ bs = blocks q [] :=
  Triple.of_bind_pure (Triple.alloc _ fun a => Triple.ret ⟨a, rfl, rfl⟩)

/-- `get_front` returns the data of the first node. -/
theorem getFront_triple :
    Triple (blocks q cs) (getFront (some q)) fun r bs =>
      r = (RedisImpl.getFront (cs.map Prod.snd)).join ∧ bs.Perm (blocks q cs) := by
  unfold getFront
  refine queueAt_triple List.mem_cons_self ?_
  cases cs with
  | nil => exact Triple.ret ⟨rfl, List.Perm.refl _⟩
  | cons c cs => exact nodeAt_triple (front_mem c cs) (Triple.ret ⟨rfl, List.Perm.refl _⟩)

/-- `get_rear` returns the data of the last node. -/
theorem getRear_triple :
    Triple (blocks q cs) (getRear (some q)) fun r bs =>
      r = (cs.map Prod.snd).getLast?.join ∧ bs.Perm (blocks q cs) := by
  unfold getRear
  refine queueAt_triple List.mem_cons_self ?_
  induction cs using List.reverseRecOn with
  | nil => exact Triple.ret ⟨rfl, List.Perm.refl _⟩
  | append_singleton cs c _ =>
    simp only [Chain.last_concat]
    refine nodeAt_triple (rear_mem cs c) (Triple.ret ⟨?_, List.Perm.refl _⟩)
    simp

/-- `enqueue` appends a node. -/
theorem enqueue_triple (data : Ptr) :
    Triple (blocks q cs) (enqueue (some q) data) fun _ bs =>
      ∃ n, bs.Perm (blocks q (cs ++ [(n, data)])) := by
  unfold enqueue
  refine Triple.alloc _ fun n => ?_
  refine queueAt_triple (List.mem_cons_of_mem _ List.mem_cons_self) ?_
  induction cs using List.reverseRecOn with
  | nil =>
    refine Triple.store _ (List.Perm.swap _ _ _) ?_
    refine nodeAt_triple (List.mem_cons_of_mem _ List.mem_cons_self) ?_
    refine Triple.of_bind_pure (Triple.store _ (List.Perm.swap _ _ _) (Triple.ret ⟨n, ?_⟩))
    exact List.Perm.swap _ _ _
  | append_singleton cs c _ =>
    have hhead : Chain.head none (cs ++ [c]) = Chain.head (some c.1) cs := Chain.head_append _ _ _
    rw [if_neg (by simp [Chain.last_concat])]
    simp only [Chain.last_concat, hhead]
    refine nodeAt_triple (List.mem_cons_of_mem _ (rear_mem cs c)) ?_
    refine Triple.store _ (((rear_perm cs c).cons _).trans (List.Perm.swap _ _ _)) ?_
    refine nodeAt_triple (List.mem_cons_of_mem _ List.mem_cons_self) ?_
    refine Triple.store _ (List.Perm.swap _ _ _) ?_
    refine Triple.of_bind_pure (Triple.store _
      (perm_third _ _ _ _) (Triple.ret ⟨n, ?_⟩))
    refine List.Perm.trans ?_ (rear_perm (cs ++ [c]) (n, data)).symm
    rw [Chain.blocks_concat, Chain.last_concat, Chain.head_append]
    exact (List.Perm.swap _ _ _).trans (((List.perm_append_singleton _ _).cons _).cons _).symm

/-- `dequeue` takes the front node off. -/
theorem dequeue_triple :
    Triple (blocks q cs) (dequeue (some q)) fun r bs =>
      r = (RedisImpl.dequeue (cs.map Prod.snd)).1.join ∧ bs.Perm (blocks q cs.tail) := by
  unfold dequeue
  refine queueAt_triple List.mem_cons_self ?_
  cases cs with
  | nil => exact Triple.ret ⟨rfl, List.Perm.refl _⟩
  | cons c cs =>
    cases cs with
    | nil =>
      rw [if_neg (by simp [Chain.head]), if_pos (by exact rfl)]
      refine Triple.store _ (List.Perm.refl _) ?_
      refine nodeAt_triple (List.mem_cons_of_mem _ List.mem_cons_self) ?_
      exact Triple.free (List.Perm.swap _ _ _) (Triple.ret ⟨rfl, List.Perm.refl _⟩)
    | cons d cs =>
      refine Triple.of_nodup fun hnodup => ?_
      rw [if_neg (by simp [Chain.head]), if_neg (front_ne_rear hnodup)]
      refine nodeAt_triple (front_mem c (d :: cs)) ?_
      refine Triple.store _ (List.Perm.swap _ _ _) ?_
      refine nodeAt_triple
        (List.mem_cons_of_mem _ (List.mem_cons_of_mem _ List.mem_cons_self)) ?_
      refine Triple.store _ (perm_third _ _ _ _) ?_
      refine Triple.store _ (perm_third _ _ _ _) ?_
      refine nodeAt_triple
        (List.mem_cons_of_mem _ (List.mem_cons_of_mem _ List.mem_cons_self)) ?_
      refine Triple.free (perm_third _ _ _ _) ?_
      exact Triple.ret ⟨rfl, List.Perm.refl _⟩

end Calls

/-! ## Calls in a row -/

inductive Call where
  | enqueue (data : Ptr)
  | dequeue

/-- The calls, with what the calls of `dequeue` return. -/
def runCalls (q : Ptr) : List Call → HeapM Block (List Ptr)
  | [] => return []
  | .enqueue data :: calls => do
    enqueue q data
    runCalls q calls
  | .dequeue :: calls => do
    let r ← dequeue q
    let rs ← runCalls q calls
    return r :: rs

/-- The same on a list: what is taken out at the front, and what is left of what was put in at the
rear. -/
def fifo : List Call → List Ptr → List Ptr × List Ptr
  | [], xs => ([], xs)
  | .enqueue data :: calls, xs => fifo calls (RedisImpl.enqueue xs data)
  | .dequeue :: calls, xs =>
    let (r, xs) := RedisImpl.dequeue xs
    let (rs, xs) := fifo calls xs
    (r.join :: rs, xs)

/-- The items that calls put in. -/
def put : List Call → List Ptr
  | [] => []
  | .enqueue data :: calls => data :: put calls
  | .dequeue :: calls => put calls

/-- What was put in is what was taken out and, behind it, what is left; the calls of `dequeue`
return the items `out` that were taken out, and NULL where there was none. -/
theorem fifo_order (calls : List Call) (xs : List Ptr) :
    ∃ out, xs ++ put calls = out ++ (fifo calls xs).2 ∧
      (fifo calls xs).1.filterMap id = out.filterMap id := by
  induction calls generalizing xs with
  | nil => exact ⟨[], List.append_nil xs, rfl⟩
  | cons call calls ih =>
    cases call with
    | enqueue data =>
      obtain ⟨out, hput, hout⟩ := ih (RedisImpl.enqueue xs data)
      refine ⟨out, ?_, hout⟩
      rw [fifo, ← hput, RedisImpl.enqueue, put, List.append_assoc, List.singleton_append]
    | dequeue =>
      obtain ⟨out, hput, hout⟩ := ih xs.tail
      cases xs with
      | nil => exact ⟨out, hput, hout⟩
      | cons x xs =>
        refine ⟨x :: out, congrArg (x :: ·) hput, ?_⟩
        show List.filterMap id (x :: (fifo calls xs).1) = _
        rw [List.filterMap_cons, List.filterMap_cons,
          show (fifo calls xs).1.filterMap id = out.filterMap id from hout]

theorem runCalls_triple (q : Nat) (calls : List Call) (cs : List (Nat × Ptr)) :
    Triple (blocks q cs) (runCalls (some q) calls) fun rs bs =>
      ∃ ds, bs.Perm (blocks q ds) ∧ fifo calls (cs.map Prod.snd) = (rs, ds.map Prod.snd) := by
  induction calls generalizing cs with
  | nil => exact Triple.ret ⟨cs, List.Perm.refl _, rfl⟩
  | cons call calls ih =>
    cases call with
    | enqueue data =>
      refine Triple.bind (enqueue_triple data) ?_
      rintro _ bs ⟨n, hp⟩
      have hrest := ih (cs ++ [(n, data)])
      rw [List.map_append] at hrest
      exact Triple.perm hp hrest
    | dequeue =>
      refine Triple.bind dequeue_triple ?_
      rintro r bs ⟨rfl, hp⟩
      refine Triple.bind (Triple.perm hp (ih cs.tail)) ?_
      rintro rs bs' ⟨ds, hp', hrest⟩
      refine Triple.ret ⟨ds, hp', ?_⟩
      rw [List.map_tail] at hrest
      simp only [fifo, RedisImpl.dequeue, hrest]

/-! ## What the memory looks like -/

/-- The node at `a`, if there is one. -/
def nodeIn (h : Heap Block) (a : Nat) : Option ListNode :=
  match h.load a with
  | some (.node n) => some n
  | _ => none

def nextIn (h : Heap Block) (a : Nat) : Option Ptr := (nodeIn h a).map ListNode.next

def prevIn (h : Heap Block) (a : Nat) : Option Ptr := (nodeIn h a).map ListNode.prev

def dataIn (h : Heap Block) (a : Nat) : Option Ptr := (nodeIn h a).map ListNode.data

/-- The doubly linked list of a queue: its cells from front to rear, and the items in them. -/
structure Linked (h : Heap Block) (s : Queue) (cells : List Nat) (xs : List Ptr) : Prop where
  front_iff : s.front = none ↔ s.rear = none
  forward : Follows (nextIn h) s.front cells
  distinct : cells.Nodup
  ends : cells.getLast? = s.rear
  backward : Follows (prevIn h) s.rear cells.reverse
  data : cells.map (dataIn h) = xs.map some

/-- The queue at `q` holds the items `xs`. -/
def Represents (h : Heap Block) (q : Nat) (xs : List Ptr) : Prop :=
  ∃ s cells, h.load q = some (.queue s) ∧ Linked h s cells xs

/-- The call `m` returns `r`, and after it the queue holds `xs`. -/
def Gives (h : Heap Block) (q : Nat) (m : HeapM Block Ptr) (r : Ptr) (xs : List Ptr) : Prop :=
  ∃ h', m h = some (r, h') ∧ Represents h' q xs

section Memory

variable {h : Heap Block} {q : Nat} {cs : List (Nat × Ptr)} {F : List (Nat × Block)}

/-- The list that the blocks of a queue make up. -/
theorem represents_of_owns (ho : Owns h (blocks q cs ++ F)) : Represents h q (cs.map Prod.snd) := by
  have hload : ∀ a p n d, (a, link p n d) ∈ Chain.blocks link none none cs →
      nodeIn h a = some ⟨p, n, d⟩ := by
    intro a p n d hm
    rw [nodeIn, ho.load_of_mem (List.mem_append_left F (List.mem_cons_of_mem _ hm))]
    rfl
  have hforward : Follows (nextIn h) (Chain.head none cs) (cs.map Prod.fst) :=
    Chain.follows_next fun a p n d hm => by rw [nextIn, hload a p n d hm]; rfl
  refine ⟨_, cs.map Prod.fst, ho.load_of_mem List.mem_cons_self, ?_, hforward, hforward.nodup, ?_,
    ?_, ?_⟩
  · cases cs with
    | nil => exact Iff.rfl
    | cons c cs => simp [Chain.head, Chain.last_eq_getLast?]
  · exact (Chain.last_eq_getLast? cs).symm
  · exact Chain.follows_prev fun a p n d hm => by rw [prevIn, hload a p n d hm]; rfl
  · rw [List.map_map, List.map_map]
    refine List.map_congr_left fun c hc => ?_
    obtain ⟨p, n, hm⟩ : ∃ p n, (c.1, link p n c.2) ∈ Chain.blocks link none none cs :=
      Chain.exists_mem_blocks none none hc
    rw [Function.comp_apply, dataIn, hload c.1 p n c.2 hm]
    rfl

/-- A call that leaves the nodes `cs`. -/
theorem gives_of_triple {bs : List (Nat × Block)} {m : HeapM Block Ptr} {r : Ptr}
    (hm : Triple bs m fun r' bs' => r' = r ∧ bs'.Perm (blocks q cs)) (ho : Owns h (bs ++ F)) :
    Gives h q m r (cs.map Prod.snd) := by
  obtain ⟨_, h', bs', hr, ⟨rfl, hp⟩, ho'⟩ := hm h F ho
  exact ⟨h', hr, represents_of_owns (ho'.perm (hp.append_right F))⟩

end Memory

/-- After any calls on a new queue, its memory is a doubly linked list of the items that are left,
the functions of `queue.c` read it as such, and all other memory is as it was. -/
theorem calls_represent (h : Heap Block) (calls : List Call) :
    ∃ rs xs, fifo calls [] = (rs, xs) ∧ ∃ q h₁ h₂, initQueue h = some (some q, h₁) ∧
      runCalls (some q) calls h₁ = some (rs, h₂) ∧ Represents h₂ q xs ∧
      Gives h₂ q (getFront (some q)) xs.head?.join xs ∧
      Gives h₂ q (getRear (some q)) xs.getLast?.join xs ∧
      Gives h₂ q (dequeue (some q)) xs.head?.join xs.tail ∧
      ∀ a c, h.load a = some c → h₂.load a = some c := by
  obtain ⟨F, hF, hall⟩ := Owns.exists_all h
  obtain ⟨_, h₁, bs, hinit, ⟨q, rfl, rfl⟩, ho₁⟩ := initQueue_triple h F hF
  obtain ⟨rs, h₂, bs, hrun, ⟨ds, hp, hfifo⟩, ho₂⟩ := runCalls_triple q calls [] h₁ F ho₁
  have ho := ho₂.perm (hp.append_right F)
  refine ⟨rs, ds.map Prod.snd, hfifo, q, h₁, h₂, hinit, hrun, represents_of_owns ho,
    gives_of_triple getFront_triple ho, gives_of_triple getRear_triple ho, ?_, ?_⟩
  · rw [← List.map_tail]
    exact gives_of_triple dequeue_triple ho
  · exact fun a c hl => ho.right.load_of_mem (hall a c hl)

end Queue
end RedisImpl
