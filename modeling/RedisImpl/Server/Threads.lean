import RedisImpl.Lib.Sys
import RedisImpl.Server.Queue

/-!
# The threads of the server

`start_server` runs the accept loop, the workers, the manager of the request queue
(`th_req_queue_mgr`) and the manager of the timed-out requests (`th_excd_tm_q_mgr`). They share two
queues, each with a mutex and a semaphore. `serverSys` is the system of their steps:

* A section under a mutex is one step: `accept_client`, `init_request` and `enqueue` of the accept
  loop; `dequeue` of a worker and of the manager of the timed-out requests. The sweep of the other
  manager holds the request queue's mutex all the time; each request that it moves from queue to
  queue is one step, and each `sem_post` another.
* `sem_wait` takes a step when the semaphore is positive. Nobody looks at what it returns, so it can
  also come back early, on a signal: these steps are apart (`workerEarly`, `excdEarly`).

Clock readings, file descriptors and the order of the steps are arbitrary.
-/

namespace RedisImpl

/-- The accept loop: before `accept_client`, or between `enqueue` and `sem_post`. -/
inductive Main where
  | idle
  | posting
  deriving DecidableEq

/-- `app_worker`: before `sem_wait`, between it and `dequeue`, with a request, in `app_code`. -/
inductive AppWorker where
  | waiting
  | passed
  | holding (rq : Request)
  | serving (rq : Request)
  deriving DecidableEq

/-- `th_req_queue_mgr`: asleep, or in a sweep at the time `curr_tm`, before looking at the front or
before `sem_post`. In a sweep it holds `req_q_mtx`. -/
inductive ReqQueueMgr where
  | asleep
  | sweeping (currTm : Timespec)
  | posting (currTm : Timespec)
  deriving DecidableEq

/-- `th_excd_tm_q_mgr`: before `sem_wait`, between it and `dequeue`, with a request, after sending
the message to its client. -/
inductive ExcdTmQMgr where
  | waiting
  | passed
  | holding (rq : Request)
  | sent (rq : Request)
  deriving DecidableEq

/-- The state of the threads `W` being the workers. The last four fields record what happened. -/
structure Server (W : Type) where
  reqQ : List Request
  reqQSem : Nat
  excdTmQ : List Request
  excdTmSem : Nat
  main : Main
  worker : W → AppWorker
  reqQueueMgr : ReqQueueMgr
  excdTmQMgr : ExcdTmQMgr
  /-- How many connections were accepted. -/
  accepted : Nat
  /-- The requests that were handed to `app_code`, and that were sent the timeout message. -/
  handed : List Nat
  timedOut : List Nat
  /-- The requests closed by a worker, and by the manager of the timed-out requests. -/
  served : List Nat
  rejected : List Nat

inductive Action (W : Type) where
  | accept (fd : Int) (ts : Timespec)
  | acceptPost
  | workerWait (w : W)
  | workerEarly (w : W)
  | workerDequeue (w : W)
  | workerServe (w : W)
  | workerClose (w : W)
  | sweep (currTm : Timespec)
  | sweepStep
  | sweepPost
  | excdWait
  | excdEarly
  | excdDequeue
  | excdSend
  | excdClose

/-- The literals of `Fin 2` in the runs of two workers rest on this. -/
instance neZero_workers : NeZero 2 := ⟨by decide⟩

namespace Server

variable {W : Type} [DecidableEq W]

/-- The threads after `start_server` created them. -/
def start : Server W where
  reqQ := []
  reqQSem := 0
  excdTmQ := []
  excdTmSem := 0
  main := .idle
  worker _ := .waiting
  reqQueueMgr := .asleep
  excdTmQMgr := .waiting
  accepted := 0
  handed := []
  timedOut := []
  served := []
  rejected := []

/-- Nobody holds `req_q_mtx`. -/
def Unlocked (s : Server W) : Prop := s.reqQueueMgr = .asleep

instance (s : Server W) : Decidable s.Unlocked := inferInstanceAs (Decidable (_ = _))

def setWorker (s : Server W) (w : W) (x : AppWorker) : Server W :=
  { s with worker := Function.update s.worker w x }

/-- The manager of the request queue looks at the front: it moves the request if it has waited too
long (`delta` is 1 second), else it ends the sweep. -/
def sweepStep (r : Rounding) (maxQueueTime : Int) (currTm : Timespec) (s : Server W) : Server W :=
  match getFront s.reqQ with
  | none => { s with reqQueueMgr := .asleep }
  | some request =>
    let diff := getTimeDiff currTm request.ts
    if !wasWaitingTimeExceeded r diff 1 maxQueueTime then { s with reqQueueMgr := .asleep } else
    { s with
      reqQ := (dequeue s.reqQ).2
      excdTmQ := enqueue s.excdTmQ request
      reqQueueMgr := .posting currTm }

/-- The state after an action, if it is one that a thread can take. -/
def step (r : Rounding) (maxQueueTime : Int) (s : Server W) : Action W → Option (Server W)
  | .accept fd ts =>
    if s.main = .idle ∧ s.Unlocked then
      some { s with
        reqQ := enqueue s.reqQ ⟨s.accepted, fd, ts⟩
        main := .posting
        accepted := s.accepted + 1 }
    else none
  | .acceptPost =>
    if s.main = .posting then some { s with reqQSem := s.reqQSem + 1, main := .idle } else none
  | .workerWait w =>
    if s.worker w = .waiting ∧ 0 < s.reqQSem then
      some ({ s with reqQSem := s.reqQSem - 1 }.setWorker w .passed)
    else none
  | .workerEarly w => if s.worker w = .waiting then some (s.setWorker w .passed) else none
  | .workerDequeue w =>
    if s.worker w = .passed ∧ s.Unlocked then
      match dequeue s.reqQ with
      | (none, q) => some ({ s with reqQ := q }.setWorker w .waiting)
      | (some rq, q) => some ({ s with reqQ := q }.setWorker w (.holding rq))
    else none
  | .workerServe w =>
    match s.worker w with
    | .holding rq => some ({ s with handed := rq.id :: s.handed }.setWorker w (.serving rq))
    | _ => none
  | .workerClose w =>
    match s.worker w with
    | .serving rq => some ({ s with served := rq.id :: s.served }.setWorker w .waiting)
    | _ => none
  | .sweep currTm =>
    if s.reqQueueMgr = .asleep then some { s with reqQueueMgr := .sweeping currTm } else none
  | .sweepStep =>
    match s.reqQueueMgr with
    | .sweeping currTm => some (s.sweepStep r maxQueueTime currTm)
    | _ => none
  | .sweepPost =>
    match s.reqQueueMgr with
    | .posting currTm =>
      some { s with excdTmSem := s.excdTmSem + 1, reqQueueMgr := .sweeping currTm }
    | _ => none
  | .excdWait =>
    if s.excdTmQMgr = .waiting ∧ 0 < s.excdTmSem then
      some { s with excdTmSem := s.excdTmSem - 1, excdTmQMgr := .passed }
    else none
  | .excdEarly =>
    if s.excdTmQMgr = .waiting then some { s with excdTmQMgr := .passed } else none
  | .excdDequeue =>
    if s.excdTmQMgr = .passed then
      match dequeue s.excdTmQ with
      | (none, q) => some { s with excdTmQ := q, excdTmQMgr := .waiting }
      | (some rq, q) => some { s with excdTmQ := q, excdTmQMgr := .holding rq }
    else none
  | .excdSend =>
    match s.excdTmQMgr with
    | .holding rq => some { s with timedOut := rq.id :: s.timedOut, excdTmQMgr := .sent rq }
    | _ => none
  | .excdClose =>
    match s.excdTmQMgr with
    | .sent rq => some { s with rejected := rq.id :: s.rejected, excdTmQMgr := .waiting }
    | _ => none

/-- What each step does, with what the thread found before it: `step` without its case splits
(`step_cases`). -/
inductive Step (r : Rounding) (maxQueueTime : Int) (s : Server W) : Action W → Server W → Prop
  | accept (fd : Int) (ts : Timespec) (hm : s.main = .idle) (hu : s.Unlocked) :
    Step r maxQueueTime s (.accept fd ts) { s with
      reqQ := enqueue s.reqQ ⟨s.accepted, fd, ts⟩, main := .posting, accepted := s.accepted + 1 }
  | acceptPost (hm : s.main = .posting) :
    Step r maxQueueTime s .acceptPost { s with reqQSem := s.reqQSem + 1, main := .idle }
  | workerWait (w : W) (hw : s.worker w = .waiting) (hs : 0 < s.reqQSem) :
    Step r maxQueueTime s (.workerWait w)
      ({ s with reqQSem := s.reqQSem - 1 }.setWorker w .passed)
  | workerEarly (w : W) (hw : s.worker w = .waiting) :
    Step r maxQueueTime s (.workerEarly w) (s.setWorker w .passed)
  | workerNone (w : W) (hw : s.worker w = .passed) (hu : s.Unlocked) (hq : s.reqQ = []) :
    Step r maxQueueTime s (.workerDequeue w) (s.setWorker w .waiting)
  | workerTake (w : W) (rq : Request) (q : List Request) (hw : s.worker w = .passed)
      (hu : s.Unlocked) (hq : s.reqQ = rq :: q) :
    Step r maxQueueTime s (.workerDequeue w) ({ s with reqQ := q }.setWorker w (.holding rq))
  | workerServe (w : W) (rq : Request) (hw : s.worker w = .holding rq) :
    Step r maxQueueTime s (.workerServe w)
      ({ s with handed := rq.id :: s.handed }.setWorker w (.serving rq))
  | workerClose (w : W) (rq : Request) (hw : s.worker w = .serving rq) :
    Step r maxQueueTime s (.workerClose w)
      ({ s with served := rq.id :: s.served }.setWorker w .waiting)
  | sweep (currTm : Timespec) (hm : s.reqQueueMgr = .asleep) :
    Step r maxQueueTime s (.sweep currTm) { s with reqQueueMgr := .sweeping currTm }
  | sweepEnd (currTm : Timespec) (hm : s.reqQueueMgr = .sweeping currTm) :
    Step r maxQueueTime s .sweepStep { s with reqQueueMgr := .asleep }
  | sweepMove (currTm : Timespec) (rq : Request) (q : List Request)
      (hm : s.reqQueueMgr = .sweeping currTm) (hq : s.reqQ = rq :: q)
      (ht : wasWaitingTimeExceeded r (getTimeDiff currTm rq.ts) 1 maxQueueTime = true) :
    Step r maxQueueTime s .sweepStep { s with
      reqQ := q, excdTmQ := enqueue s.excdTmQ rq, reqQueueMgr := .posting currTm }
  | sweepPost (currTm : Timespec) (hm : s.reqQueueMgr = .posting currTm) :
    Step r maxQueueTime s .sweepPost { s with
      excdTmSem := s.excdTmSem + 1, reqQueueMgr := .sweeping currTm }
  | excdWait (hm : s.excdTmQMgr = .waiting) (hs : 0 < s.excdTmSem) :
    Step r maxQueueTime s .excdWait { s with
      excdTmSem := s.excdTmSem - 1, excdTmQMgr := .passed }
  | excdEarly (hm : s.excdTmQMgr = .waiting) :
    Step r maxQueueTime s .excdEarly { s with excdTmQMgr := .passed }
  | excdNone (hm : s.excdTmQMgr = .passed) (hq : s.excdTmQ = []) :
    Step r maxQueueTime s .excdDequeue { s with excdTmQMgr := .waiting }
  | excdTake (rq : Request) (q : List Request) (hm : s.excdTmQMgr = .passed)
      (hq : s.excdTmQ = rq :: q) :
    Step r maxQueueTime s .excdDequeue { s with excdTmQ := q, excdTmQMgr := .holding rq }
  | excdSend (rq : Request) (hm : s.excdTmQMgr = .holding rq) :
    Step r maxQueueTime s .excdSend { s with
      timedOut := rq.id :: s.timedOut, excdTmQMgr := .sent rq }
  | excdClose (rq : Request) (hm : s.excdTmQMgr = .sent rq) :
    Step r maxQueueTime s .excdClose { s with
      rejected := rq.id :: s.rejected, excdTmQMgr := .waiting }

section Cases

variable {r : Rounding} {maxQueueTime : Int} {s s' : Server W}

theorem step_sweepStep {currTm : Timespec} (hm : s.reqQueueMgr = .sweeping currTm) :
    Step r maxQueueTime s .sweepStep (s.sweepStep r maxQueueTime currTm) := by
  cases hq : s.reqQ with
  | nil =>
    have he : s.sweepStep r maxQueueTime currTm = { s with reqQueueMgr := .asleep } := by
      simp only [sweepStep, hq, getFront, List.head?_nil]
    rw [he]
    exact .sweepEnd currTm hm
  | cons rq q =>
    cases ht : wasWaitingTimeExceeded r (getTimeDiff currTm rq.ts) 1 maxQueueTime with
    | false =>
      have he : s.sweepStep r maxQueueTime currTm = { s with reqQueueMgr := .asleep } := by
        simp only [sweepStep, hq, getFront_cons, ht, Bool.not_false, if_true]
      rw [he]
      exact .sweepEnd currTm hm
    | true =>
      have he : s.sweepStep r maxQueueTime currTm = { s with
          reqQ := q, excdTmQ := enqueue s.excdTmQ rq, reqQueueMgr := .posting currTm } := by
        simp [sweepStep, hq, ht]
      rw [he]
      exact .sweepMove currTm rq q hm hq ht

theorem step_cases {a : Action W} (h : s.step r maxQueueTime a = some s') :
    Step r maxQueueTime s a s' := by
  cases a with
  | accept fd ts =>
    obtain ⟨⟨hm, hu⟩, ⟨⟩⟩ := Option.ite_none_right_eq_some.mp h
    exact .accept fd ts hm hu
  | acceptPost =>
    obtain ⟨hm, ⟨⟩⟩ := Option.ite_none_right_eq_some.mp h
    exact .acceptPost hm
  | workerWait w =>
    obtain ⟨⟨hw, hs⟩, ⟨⟩⟩ := Option.ite_none_right_eq_some.mp h
    exact .workerWait w hw hs
  | workerEarly w =>
    obtain ⟨hw, ⟨⟩⟩ := Option.ite_none_right_eq_some.mp h
    exact .workerEarly w hw
  | workerDequeue w =>
    obtain ⟨⟨hw, hu⟩, h⟩ := Option.ite_none_right_eq_some.mp h
    -- `dequeue` may find the queue empty
    cases hq : s.reqQ with
    | nil =>
      simp only [hq, dequeue_nil, Option.some.injEq] at h
      subst h
      exact hq ▸ .workerNone w hw hu hq
    | cons rq q =>
      simp only [hq, dequeue_cons, Option.some.injEq] at h
      subst h
      exact .workerTake w rq q hw hu hq
  | workerServe w =>
    simp only [step] at h
    split at h
    · rename_i rq hw
      cases h
      exact .workerServe w rq hw
    · cases h
  | workerClose w =>
    simp only [step] at h
    split at h
    · rename_i rq hw
      cases h
      exact .workerClose w rq hw
    · cases h
  | sweep currTm =>
    obtain ⟨hm, ⟨⟩⟩ := Option.ite_none_right_eq_some.mp h
    exact .sweep currTm hm
  | sweepStep =>
    simp only [step] at h
    split at h
    · rename_i currTm hm
      cases h
      exact step_sweepStep hm
    · cases h
  | sweepPost =>
    simp only [step] at h
    split at h
    · rename_i currTm hm
      cases h
      exact .sweepPost currTm hm
    · cases h
  | excdWait =>
    obtain ⟨⟨hm, hs⟩, ⟨⟩⟩ := Option.ite_none_right_eq_some.mp h
    exact .excdWait hm hs
  | excdEarly =>
    obtain ⟨hm, ⟨⟩⟩ := Option.ite_none_right_eq_some.mp h
    exact .excdEarly hm
  | excdDequeue =>
    obtain ⟨hm, h⟩ := Option.ite_none_right_eq_some.mp h
    cases hq : s.excdTmQ with
    | nil =>
      simp only [hq, dequeue_nil, Option.some.injEq] at h
      subst h
      exact hq ▸ .excdNone hm hq
    | cons rq q =>
      simp only [hq, dequeue_cons, Option.some.injEq] at h
      subst h
      exact .excdTake rq q hm hq
  | excdSend =>
    simp only [step] at h
    split at h
    · rename_i rq hm
      cases h
      exact .excdSend rq hm
    · cases h
  | excdClose =>
    simp only [step] at h
    split at h
    · rename_i rq hm
      cases h
      exact .excdClose rq hm
    · cases h

end Cases

/-! ### A worker's step -/

@[simp] theorem setWorker_worker (s : Server W) (w v : W) (x : AppWorker) :
    (s.setWorker w x).worker v = if v = w then x else s.worker v := by
  simp [setWorker, Function.update_apply]

@[simp] theorem setWorker_reqQ (s : Server W) (w : W) (x : AppWorker) :
    (s.setWorker w x).reqQ = s.reqQ := rfl
@[simp] theorem setWorker_excdTmQ (s : Server W) (w : W) (x : AppWorker) :
    (s.setWorker w x).excdTmQ = s.excdTmQ := rfl
@[simp] theorem setWorker_excdTmQMgr (s : Server W) (w : W) (x : AppWorker) :
    (s.setWorker w x).excdTmQMgr = s.excdTmQMgr := rfl
@[simp] theorem setWorker_accepted (s : Server W) (w : W) (x : AppWorker) :
    (s.setWorker w x).accepted = s.accepted := rfl
@[simp] theorem setWorker_handed (s : Server W) (w : W) (x : AppWorker) :
    (s.setWorker w x).handed = s.handed := rfl
@[simp] theorem setWorker_timedOut (s : Server W) (w : W) (x : AppWorker) :
    (s.setWorker w x).timedOut = s.timedOut := rfl
@[simp] theorem setWorker_served (s : Server W) (w : W) (x : AppWorker) :
    (s.setWorker w x).served = s.served := rfl
@[simp] theorem setWorker_rejected (s : Server W) (w : W) (x : AppWorker) :
    (s.setWorker w x).rejected = s.rejected := rfl

end Server

/-- The system of the server's threads. -/
def serverSys (W : Type) [DecidableEq W] (r : Rounding) (maxQueueTime : Int) :
    Sys (Server W) (Action W) where
  init s := s = .start
  step a s s' := s.step r maxQueueTime a = some s'

/-- The state after some actions, if each is one that a thread can take. -/
def Server.run {W : Type} [DecidableEq W] (r : Rounding) (maxQueueTime : Int) (s : Server W) :
    List (Action W) → Option (Server W)
  | [] => some s
  | a :: as => (s.step r maxQueueTime a).bind fun s' => s'.run r maxQueueTime as

theorem Server.reach_run {W : Type} [DecidableEq W] {r : Rounding} {maxQueueTime : Int}
    {s s' : Server W} {as : List (Action W)} (hs : (serverSys W r maxQueueTime).Reach s)
    (h : s.run r maxQueueTime as = some s') : (serverSys W r maxQueueTime).Reach s' := by
  induction as generalizing s with
  | nil =>
    cases h
    exact hs
  | cons a as ih =>
    obtain ⟨t, ht, h⟩ := Option.bind_eq_some_iff.mp h
    exact ih (.step a hs ht) h

end RedisImpl
