import RedisImpl.Lib.Simulation
import RedisImpl.Server.Threads

/-!
# The threads and their mutexes

The threads of `Server/Threads.lean` one call at a time. There a section under a mutex is one step;
here each `pthread_mutex_lock`, each call on a queue and each `pthread_mutex_unlock` is a step of its
own (`processSys`), and the calls of the threads interleave in any way.

`pthread_mutex_lock` and `pthread_mutex_unlock` succeed; when they do not, the process exits.
-/

namespace RedisImpl

inductive Thread (W : Type) where
  | main
  | worker (w : W)
  | reqQueueMgr
  | excdTmQMgr
  deriving DecidableEq

/-- The accept loop: at `accept_client`, and with the new request at the calls after it. -/
inductive MainCode where
  | accepting
  | locking (fd : Int) (ts : Timespec)
  | enqueuing (fd : Int) (ts : Timespec)
  | unlocking
  | posting
  deriving DecidableEq

/-- `app_worker`, at its calls. -/
inductive WorkerCode where
  | waiting
  | locking
  | dequeuing
  | unlocking (rq : Option Request)
  | holding (rq : Request)
  | serving (rq : Request)
  deriving DecidableEq

/-- `th_req_queue_mgr`, at its calls; `checking` is the `if`s between `get_front` and `dequeue`. -/
inductive ReqQueueMgrCode where
  | asleep
  | locking
  | reading
  | looking (currTm : Timespec)
  | checking (currTm : Timespec) (request : Option Request)
  | dequeuing (currTm : Timespec) (request : Request)
  | lockingExcd (currTm : Timespec) (request : Request)
  | enqueuing (currTm : Timespec) (request : Request)
  | unlockingExcd (currTm : Timespec)
  | posting (currTm : Timespec)
  | unlocking
  deriving DecidableEq

/-- `th_excd_tm_q_mgr`, at its calls. -/
inductive ExcdTmQMgrCode where
  | waiting
  | locking
  | dequeuing
  | unlocking (rq : Option Request)
  | holding (rq : Request)
  | sent (rq : Request)
  deriving DecidableEq

/-- The queues, the semaphores, the mutexes with their owners, and where the threads are. The last
five fields are those of `Server`. -/
structure Process (W : Type) where
  reqQ : List Request
  reqQSem : Nat
  reqQMtx : Option (Thread W)
  excdTmQ : List Request
  excdTmSem : Nat
  excdTmMtx : Option (Thread W)
  main : MainCode
  worker : W → WorkerCode
  reqQueueMgr : ReqQueueMgrCode
  excdTmQMgr : ExcdTmQMgrCode
  accepted : Nat
  handed : List Nat
  timedOut : List Nat
  served : List Nat
  rejected : List Nat

/-- A thread makes its next call. The arguments are what the system gives it there: a connection, the
time, an early return of `sem_wait`. -/
inductive Event (W : Type) where
  | main (fd : Int) (ts : Timespec)
  | worker (w : W) (early : Bool)
  | reqQueueMgr (currTm : Timespec)
  | excdTmQMgr (early : Bool)

def Event.thread {W : Type} : Event W → Thread W
  | main _ _ => .main
  | worker w _ => .worker w
  | reqQueueMgr _ => .reqQueueMgr
  | excdTmQMgr _ => .excdTmQMgr

namespace Process

variable {W : Type} [DecidableEq W]

def start : Process W where
  reqQ := []
  reqQSem := 0
  reqQMtx := none
  excdTmQ := []
  excdTmSem := 0
  excdTmMtx := none
  main := .accepting
  worker _ := .waiting
  reqQueueMgr := .asleep
  excdTmQMgr := .waiting
  accepted := 0
  handed := []
  timedOut := []
  served := []
  rejected := []

def setWorker (p : Process W) (w : W) (x : WorkerCode) : Process W :=
  { p with worker := Function.update p.worker w x }

/-- The accept loop of `start_server`. -/
def stepMain (fd : Int) (ts : Timespec) (p : Process W) : Option (Process W) :=
  match p.main with
  | .accepting => some { p with main := .locking fd ts }
  | .locking fd ts =>
    if p.reqQMtx = none then some { p with reqQMtx := some .main, main := .enqueuing fd ts }
    else none
  | .enqueuing fd ts =>
    some { p with
      reqQ := enqueue p.reqQ ⟨p.accepted, fd, ts⟩, accepted := p.accepted + 1, main := .unlocking }
  | .unlocking => some { p with reqQMtx := none, main := .posting }
  | .posting => some { p with reqQSem := p.reqQSem + 1, main := .accepting }

/-- `app_worker`. -/
def stepWorker (w : W) (early : Bool) (p : Process W) : Option (Process W) :=
  match p.worker w with
  | .waiting =>
    if early then some (p.setWorker w .locking)
    else if 0 < p.reqQSem then some ({ p with reqQSem := p.reqQSem - 1 }.setWorker w .locking)
    else none
  | .locking =>
    if p.reqQMtx = none then some ({ p with reqQMtx := some (.worker w) }.setWorker w .dequeuing)
    else none
  | .dequeuing =>
    let (rq, q) := dequeue p.reqQ
    some ({ p with reqQ := q }.setWorker w (.unlocking rq))
  | .unlocking none => some ({ p with reqQMtx := none }.setWorker w .waiting)
  | .unlocking (some rq) => some ({ p with reqQMtx := none }.setWorker w (.holding rq))
  | .holding rq => some ({ p with handed := rq.id :: p.handed }.setWorker w (.serving rq))
  | .serving rq => some ({ p with served := rq.id :: p.served }.setWorker w .waiting)

/-- `th_req_queue_mgr`. -/
def stepReqQueueMgr (r : Rounding) (maxQueueTime : Int) (currTm : Timespec) (p : Process W) :
    Option (Process W) :=
  match p.reqQueueMgr with
  | .asleep => some { p with reqQueueMgr := .locking }
  | .locking =>
    if p.reqQMtx = none then
      some { p with reqQMtx := some .reqQueueMgr, reqQueueMgr := .reading }
    else none
  | .reading => some { p with reqQueueMgr := .looking currTm }
  | .looking currTm => some { p with reqQueueMgr := .checking currTm (getFront p.reqQ) }
  | .checking _ none => some { p with reqQueueMgr := .unlocking }
  | .checking currTm (some request) =>
    let diff := getTimeDiff currTm request.ts
    if !wasWaitingTimeExceeded r diff 1 maxQueueTime then some { p with reqQueueMgr := .unlocking }
    else some { p with reqQueueMgr := .dequeuing currTm request }
  | .dequeuing currTm request =>
    some { p with reqQ := (dequeue p.reqQ).2, reqQueueMgr := .lockingExcd currTm request }
  | .lockingExcd currTm request =>
    if p.excdTmMtx = none then
      some { p with excdTmMtx := some .reqQueueMgr, reqQueueMgr := .enqueuing currTm request }
    else none
  | .enqueuing currTm request =>
    some { p with excdTmQ := enqueue p.excdTmQ request, reqQueueMgr := .unlockingExcd currTm }
  | .unlockingExcd currTm => some { p with excdTmMtx := none, reqQueueMgr := .posting currTm }
  | .posting currTm =>
    some { p with excdTmSem := p.excdTmSem + 1, reqQueueMgr := .looking currTm }
  | .unlocking => some { p with reqQMtx := none, reqQueueMgr := .asleep }

/-- `th_excd_tm_q_mgr`. -/
def stepExcdTmQMgr (early : Bool) (p : Process W) : Option (Process W) :=
  match p.excdTmQMgr with
  | .waiting =>
    if early then some { p with excdTmQMgr := .locking }
    else if 0 < p.excdTmSem then
      some { p with excdTmSem := p.excdTmSem - 1, excdTmQMgr := .locking }
    else none
  | .locking =>
    if p.excdTmMtx = none then
      some { p with excdTmMtx := some .excdTmQMgr, excdTmQMgr := .dequeuing }
    else none
  | .dequeuing =>
    let (rq, q) := dequeue p.excdTmQ
    some { p with excdTmQ := q, excdTmQMgr := .unlocking rq }
  | .unlocking none => some { p with excdTmMtx := none, excdTmQMgr := .waiting }
  | .unlocking (some rq) => some { p with excdTmMtx := none, excdTmQMgr := .holding rq }
  | .holding rq => some { p with timedOut := rq.id :: p.timedOut, excdTmQMgr := .sent rq }
  | .sent rq => some { p with rejected := rq.id :: p.rejected, excdTmQMgr := .waiting }

/-- The state after a thread made its next call, if it does not block there. -/
def step (r : Rounding) (maxQueueTime : Int) (p : Process W) : Event W → Option (Process W)
  | .main fd ts => p.stepMain fd ts
  | .worker w early => p.stepWorker w early
  | .reqQueueMgr currTm => p.stepReqQueueMgr r maxQueueTime currTm
  | .excdTmQMgr early => p.stepExcdTmQMgr early

/-- What each call does, with where the thread is before it: `step` without its case splits
(`step_cases`). -/
inductive Step (r : Rounding) (maxQueueTime : Int) (p : Process W) : Event W → Process W → Prop
  | accept (fd : Int) (ts : Timespec) (hc : p.main = .accepting) :
    Step r maxQueueTime p (.main fd ts) { p with main := .locking fd ts }
  | mainLock (fd fd' : Int) (ts ts' : Timespec) (hc : p.main = .locking fd ts)
      (hm : p.reqQMtx = none) :
    Step r maxQueueTime p (.main fd' ts') { p with
      reqQMtx := some .main, main := .enqueuing fd ts }
  | mainEnqueue (fd fd' : Int) (ts ts' : Timespec) (hc : p.main = .enqueuing fd ts) :
    Step r maxQueueTime p (.main fd' ts') { p with
      reqQ := enqueue p.reqQ ⟨p.accepted, fd, ts⟩, accepted := p.accepted + 1, main := .unlocking }
  | mainUnlock (fd : Int) (ts : Timespec) (hc : p.main = .unlocking) :
    Step r maxQueueTime p (.main fd ts) { p with reqQMtx := none, main := .posting }
  | mainPost (fd : Int) (ts : Timespec) (hc : p.main = .posting) :
    Step r maxQueueTime p (.main fd ts) { p with reqQSem := p.reqQSem + 1, main := .accepting }
  | workerWait (w : W) (hc : p.worker w = .waiting) (hs : 0 < p.reqQSem) :
    Step r maxQueueTime p (.worker w false)
      ({ p with reqQSem := p.reqQSem - 1 }.setWorker w .locking)
  | workerEarly (w : W) (hc : p.worker w = .waiting) :
    Step r maxQueueTime p (.worker w true) (p.setWorker w .locking)
  | workerLock (w : W) (early : Bool) (hc : p.worker w = .locking) (hm : p.reqQMtx = none) :
    Step r maxQueueTime p (.worker w early)
      ({ p with reqQMtx := some (.worker w) }.setWorker w .dequeuing)
  | workerDequeue (w : W) (early : Bool) (hc : p.worker w = .dequeuing) :
    Step r maxQueueTime p (.worker w early)
      ({ p with reqQ := (dequeue p.reqQ).2 }.setWorker w (.unlocking (dequeue p.reqQ).1))
  | workerNone (w : W) (early : Bool) (hc : p.worker w = .unlocking none) :
    Step r maxQueueTime p (.worker w early) ({ p with reqQMtx := none }.setWorker w .waiting)
  | workerTake (w : W) (early : Bool) (rq : Request) (hc : p.worker w = .unlocking (some rq)) :
    Step r maxQueueTime p (.worker w early) ({ p with reqQMtx := none }.setWorker w (.holding rq))
  | workerServe (w : W) (early : Bool) (rq : Request) (hc : p.worker w = .holding rq) :
    Step r maxQueueTime p (.worker w early)
      ({ p with handed := rq.id :: p.handed }.setWorker w (.serving rq))
  | workerClose (w : W) (early : Bool) (rq : Request) (hc : p.worker w = .serving rq) :
    Step r maxQueueTime p (.worker w early)
      ({ p with served := rq.id :: p.served }.setWorker w .waiting)
  | wake (tm : Timespec) (hc : p.reqQueueMgr = .asleep) :
    Step r maxQueueTime p (.reqQueueMgr tm) { p with reqQueueMgr := .locking }
  | mgrLock (tm : Timespec) (hc : p.reqQueueMgr = .locking) (hm : p.reqQMtx = none) :
    Step r maxQueueTime p (.reqQueueMgr tm) { p with
      reqQMtx := some .reqQueueMgr, reqQueueMgr := .reading }
  | mgrRead (tm : Timespec) (hc : p.reqQueueMgr = .reading) :
    Step r maxQueueTime p (.reqQueueMgr tm) { p with reqQueueMgr := .looking tm }
  | mgrLook (tm currTm : Timespec) (hc : p.reqQueueMgr = .looking currTm) :
    Step r maxQueueTime p (.reqQueueMgr tm) { p with
      reqQueueMgr := .checking currTm (getFront p.reqQ) }
  | mgrNone (tm currTm : Timespec) (hc : p.reqQueueMgr = .checking currTm none) :
    Step r maxQueueTime p (.reqQueueMgr tm) { p with reqQueueMgr := .unlocking }
  | mgrYoung (tm currTm : Timespec) (rq : Request) (hc : p.reqQueueMgr = .checking currTm (some rq))
      (ht : wasWaitingTimeExceeded r (getTimeDiff currTm rq.ts) 1 maxQueueTime = false) :
    Step r maxQueueTime p (.reqQueueMgr tm) { p with reqQueueMgr := .unlocking }
  | mgrOld (tm currTm : Timespec) (rq : Request) (hc : p.reqQueueMgr = .checking currTm (some rq))
      (ht : wasWaitingTimeExceeded r (getTimeDiff currTm rq.ts) 1 maxQueueTime = true) :
    Step r maxQueueTime p (.reqQueueMgr tm) { p with reqQueueMgr := .dequeuing currTm rq }
  | mgrDequeue (tm currTm : Timespec) (rq : Request) (hc : p.reqQueueMgr = .dequeuing currTm rq) :
    Step r maxQueueTime p (.reqQueueMgr tm) { p with
      reqQ := (dequeue p.reqQ).2, reqQueueMgr := .lockingExcd currTm rq }
  | mgrLockExcd (tm currTm : Timespec) (rq : Request)
      (hc : p.reqQueueMgr = .lockingExcd currTm rq) (hm : p.excdTmMtx = none) :
    Step r maxQueueTime p (.reqQueueMgr tm) { p with
      excdTmMtx := some .reqQueueMgr, reqQueueMgr := .enqueuing currTm rq }
  | mgrEnqueue (tm currTm : Timespec) (rq : Request) (hc : p.reqQueueMgr = .enqueuing currTm rq) :
    Step r maxQueueTime p (.reqQueueMgr tm) { p with
      excdTmQ := enqueue p.excdTmQ rq, reqQueueMgr := .unlockingExcd currTm }
  | mgrUnlockExcd (tm currTm : Timespec) (hc : p.reqQueueMgr = .unlockingExcd currTm) :
    Step r maxQueueTime p (.reqQueueMgr tm) { p with
      excdTmMtx := none, reqQueueMgr := .posting currTm }
  | mgrPost (tm currTm : Timespec) (hc : p.reqQueueMgr = .posting currTm) :
    Step r maxQueueTime p (.reqQueueMgr tm) { p with
      excdTmSem := p.excdTmSem + 1, reqQueueMgr := .looking currTm }
  | mgrUnlock (tm : Timespec) (hc : p.reqQueueMgr = .unlocking) :
    Step r maxQueueTime p (.reqQueueMgr tm) { p with reqQMtx := none, reqQueueMgr := .asleep }
  | excdWait (hc : p.excdTmQMgr = .waiting) (hs : 0 < p.excdTmSem) :
    Step r maxQueueTime p (.excdTmQMgr false) { p with
      excdTmSem := p.excdTmSem - 1, excdTmQMgr := .locking }
  | excdEarly (hc : p.excdTmQMgr = .waiting) :
    Step r maxQueueTime p (.excdTmQMgr true) { p with excdTmQMgr := .locking }
  | excdLock (early : Bool) (hc : p.excdTmQMgr = .locking) (hm : p.excdTmMtx = none) :
    Step r maxQueueTime p (.excdTmQMgr early) { p with
      excdTmMtx := some .excdTmQMgr, excdTmQMgr := .dequeuing }
  | excdDequeue (early : Bool) (hc : p.excdTmQMgr = .dequeuing) :
    Step r maxQueueTime p (.excdTmQMgr early) { p with
      excdTmQ := (dequeue p.excdTmQ).2, excdTmQMgr := .unlocking (dequeue p.excdTmQ).1 }
  | excdNone (early : Bool) (hc : p.excdTmQMgr = .unlocking none) :
    Step r maxQueueTime p (.excdTmQMgr early) { p with excdTmMtx := none, excdTmQMgr := .waiting }
  | excdTake (early : Bool) (rq : Request) (hc : p.excdTmQMgr = .unlocking (some rq)) :
    Step r maxQueueTime p (.excdTmQMgr early) { p with
      excdTmMtx := none, excdTmQMgr := .holding rq }
  | excdSend (early : Bool) (rq : Request) (hc : p.excdTmQMgr = .holding rq) :
    Step r maxQueueTime p (.excdTmQMgr early) { p with
      timedOut := rq.id :: p.timedOut, excdTmQMgr := .sent rq }
  | excdClose (early : Bool) (rq : Request) (hc : p.excdTmQMgr = .sent rq) :
    Step r maxQueueTime p (.excdTmQMgr early) { p with
      rejected := rq.id :: p.rejected, excdTmQMgr := .waiting }

section Cases

variable {r : Rounding} {maxQueueTime : Int} {p p' : Process W}

theorem stepMain_cases {fd : Int} {ts : Timespec} (h : p.stepMain fd ts = some p') :
    Step r maxQueueTime p (.main fd ts) p' := by
  unfold stepMain at h
  cases hc : p.main with
  | accepting =>
    simp only [hc, Option.some.injEq] at h
    exact h ▸ .accept fd ts hc
  | locking fd' ts' =>
    simp only [hc] at h
    obtain ⟨hm, ⟨⟩⟩ := Option.ite_none_right_eq_some.mp h
    exact .mainLock fd' fd ts' ts hc hm
  | enqueuing fd' ts' =>
    simp only [hc, Option.some.injEq] at h
    exact h ▸ .mainEnqueue fd' fd ts' ts hc
  | unlocking =>
    simp only [hc, Option.some.injEq] at h
    exact h ▸ .mainUnlock fd ts hc
  | posting =>
    simp only [hc, Option.some.injEq] at h
    exact h ▸ .mainPost fd ts hc

theorem stepWorker_cases {w : W} {early : Bool} (h : p.stepWorker w early = some p') :
    Step r maxQueueTime p (.worker w early) p' := by
  unfold stepWorker at h
  cases hc : p.worker w with
  | waiting =>
    simp only [hc] at h
    -- an early return of `sem_wait` needs no post
    cases early with
    | true =>
      simp only [if_true, Option.some.injEq] at h
      exact h ▸ .workerEarly w hc
    | false =>
      simp only [Bool.false_eq_true, if_false] at h
      obtain ⟨hs, ⟨⟩⟩ := Option.ite_none_right_eq_some.mp h
      exact .workerWait w hc hs
  | locking =>
    simp only [hc] at h
    obtain ⟨hm, ⟨⟩⟩ := Option.ite_none_right_eq_some.mp h
    exact .workerLock w early hc hm
  | dequeuing =>
    simp only [hc, Option.some.injEq] at h
    exact h ▸ .workerDequeue w early hc
  | unlocking rq =>
    cases rq with
    | none =>
      simp only [hc, Option.some.injEq] at h
      exact h ▸ .workerNone w early hc
    | some rq =>
      simp only [hc, Option.some.injEq] at h
      exact h ▸ .workerTake w early rq hc
  | holding rq =>
    simp only [hc, Option.some.injEq] at h
    exact h ▸ .workerServe w early rq hc
  | serving rq =>
    simp only [hc, Option.some.injEq] at h
    exact h ▸ .workerClose w early rq hc

theorem stepReqQueueMgr_cases {tm : Timespec}
    (h : p.stepReqQueueMgr r maxQueueTime tm = some p') :
    Step r maxQueueTime p (.reqQueueMgr tm) p' := by
  unfold stepReqQueueMgr at h
  cases hc : p.reqQueueMgr with
  | asleep =>
    simp only [hc, Option.some.injEq] at h
    exact h ▸ .wake tm hc
  | locking =>
    simp only [hc] at h
    obtain ⟨hm, ⟨⟩⟩ := Option.ite_none_right_eq_some.mp h
    exact .mgrLock tm hc hm
  | reading =>
    simp only [hc, Option.some.injEq] at h
    exact h ▸ .mgrRead tm hc
  | looking currTm =>
    simp only [hc, Option.some.injEq] at h
    exact h ▸ .mgrLook tm currTm hc
  | checking currTm request =>
    cases request with
    | none =>
      simp only [hc, Option.some.injEq] at h
      exact h ▸ .mgrNone tm currTm hc
    | some rq =>
      simp only [hc] at h
      -- a request that has waited too long goes on to the other queue
      cases ht : wasWaitingTimeExceeded r (getTimeDiff currTm rq.ts) 1 maxQueueTime with
      | false =>
        simp only [ht, Bool.not_false, if_true, Option.some.injEq] at h
        exact h ▸ .mgrYoung tm currTm rq hc ht
      | true =>
        simp only [ht, Bool.not_true, Bool.false_eq_true, if_false, Option.some.injEq] at h
        exact h ▸ .mgrOld tm currTm rq hc ht
  | dequeuing currTm rq =>
    simp only [hc, Option.some.injEq] at h
    exact h ▸ .mgrDequeue tm currTm rq hc
  | lockingExcd currTm rq =>
    simp only [hc] at h
    obtain ⟨hm, ⟨⟩⟩ := Option.ite_none_right_eq_some.mp h
    exact .mgrLockExcd tm currTm rq hc hm
  | enqueuing currTm rq =>
    simp only [hc, Option.some.injEq] at h
    exact h ▸ .mgrEnqueue tm currTm rq hc
  | unlockingExcd currTm =>
    simp only [hc, Option.some.injEq] at h
    exact h ▸ .mgrUnlockExcd tm currTm hc
  | posting currTm =>
    simp only [hc, Option.some.injEq] at h
    exact h ▸ .mgrPost tm currTm hc
  | unlocking =>
    simp only [hc, Option.some.injEq] at h
    exact h ▸ .mgrUnlock tm hc

theorem stepExcdTmQMgr_cases {early : Bool} (h : p.stepExcdTmQMgr early = some p') :
    Step r maxQueueTime p (.excdTmQMgr early) p' := by
  unfold stepExcdTmQMgr at h
  cases hc : p.excdTmQMgr with
  | waiting =>
    simp only [hc] at h
    cases early with
    | true =>
      simp only [if_true, Option.some.injEq] at h
      exact h ▸ .excdEarly hc
    | false =>
      simp only [Bool.false_eq_true, if_false] at h
      obtain ⟨hs, ⟨⟩⟩ := Option.ite_none_right_eq_some.mp h
      exact .excdWait hc hs
  | locking =>
    simp only [hc] at h
    obtain ⟨hm, ⟨⟩⟩ := Option.ite_none_right_eq_some.mp h
    exact .excdLock early hc hm
  | dequeuing =>
    simp only [hc, Option.some.injEq] at h
    exact h ▸ .excdDequeue early hc
  | unlocking rq =>
    cases rq with
    | none =>
      simp only [hc, Option.some.injEq] at h
      exact h ▸ .excdNone early hc
    | some rq =>
      simp only [hc, Option.some.injEq] at h
      exact h ▸ .excdTake early rq hc
  | holding rq =>
    simp only [hc, Option.some.injEq] at h
    exact h ▸ .excdSend early rq hc
  | sent rq =>
    simp only [hc, Option.some.injEq] at h
    exact h ▸ .excdClose early rq hc

theorem step_cases {e : Event W} (h : p.step r maxQueueTime e = some p') :
    Step r maxQueueTime p e p' := by
  cases e with
  | main fd ts => exact stepMain_cases h
  | worker w early => exact stepWorker_cases h
  | reqQueueMgr tm => exact stepReqQueueMgr_cases h
  | excdTmQMgr early => exact stepExcdTmQMgr_cases h

end Cases

@[simp] theorem setWorker_worker (p : Process W) (w v : W) (x : WorkerCode) :
    (p.setWorker w x).worker v = if v = w then x else p.worker v := by
  simp [setWorker, Function.update_apply]

end Process

/-- The system of the threads, one call at a time. -/
def processSys (W : Type) [DecidableEq W] (r : Rounding) (maxQueueTime : Int) :
    Sys (Process W) (Event W) where
  init p := p = .start
  step e p p' := p.step r maxQueueTime e = some p'

/-- The state after some calls, if no thread blocks at its call. -/
def Process.run {W : Type} [DecidableEq W] (r : Rounding) (maxQueueTime : Int) (p : Process W) :
    List (Event W) → Option (Process W)
  | [] => some p
  | e :: es => (p.step r maxQueueTime e).bind fun p' => p'.run r maxQueueTime es

theorem Process.reach_run {W : Type} [DecidableEq W] {r : Rounding} {maxQueueTime : Int}
    {p p' : Process W} {es : List (Event W)} (hp : (processSys W r maxQueueTime).Reach p)
    (h : p.run r maxQueueTime es = some p') : (processSys W r maxQueueTime).Reach p' := by
  induction es generalizing p with
  | nil =>
    cases h
    exact hp
  | cons e es ih =>
    obtain ⟨q, hq, h⟩ := Option.bind_eq_some_iff.mp h
    exact ih (.step e hp hq) h

end RedisImpl
