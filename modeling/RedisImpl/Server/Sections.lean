import RedisImpl.Server.Mutexes

/-!
# The sections under the mutexes

* `Coherent`: a mutex is owned by the thread that is in its section, so there is one at most, and
  what the manager of the request queue has seen at the front is still there.
* `process_refines`: what the threads reach one call at a time, with the sections as single steps
  (`Process.server`), is what they reach in `Server/Threads.lean`.
* `mutexes_freed`: the threads that own a mutex come to the ends of their sections.
-/

namespace RedisImpl

/-! ## Sections -/

/-- Between `mutex_lock` and `mutex_unlock` of `req_q_mtx`. -/
def MainCode.inReqQ : MainCode → Bool
  | enqueuing _ _ | unlocking => true
  | _ => false

def WorkerCode.inReqQ : WorkerCode → Bool
  | dequeuing | unlocking _ => true
  | _ => false

def ReqQueueMgrCode.inReqQ : ReqQueueMgrCode → Bool
  | asleep | locking => false
  | _ => true

/-- Between `mutex_lock` and `mutex_unlock` of `excd_tm_mtx`. -/
def ReqQueueMgrCode.inExcdTmQ : ReqQueueMgrCode → Bool
  | enqueuing _ _ | unlockingExcd _ => true
  | _ => false

def ExcdTmQMgrCode.inExcdTmQ : ExcdTmQMgrCode → Bool
  | dequeuing | unlocking _ => true
  | _ => false

/-- What the manager of the request queue knows of the queue `q` from its calls before. -/
def ReqQueueMgrCode.Knows (r : Rounding) (maxQueueTime : Int) (q : List Request) :
    ReqQueueMgrCode → Prop
  | checking _ request => getFront q = request
  | dequeuing currTm rq =>
    getFront q = some rq ∧ wasWaitingTimeExceeded r (getTimeDiff currTm rq.ts) 1 maxQueueTime = true
  | lockingExcd currTm rq | enqueuing currTm rq =>
    wasWaitingTimeExceeded r (getTimeDiff currTm rq.ts) 1 maxQueueTime = true
  | _ => True

/-- Outside its section it knows nothing. -/
theorem ReqQueueMgrCode.knows_of_out {r : Rounding} {maxQueueTime : Int} {c : ReqQueueMgrCode}
    (h : c.inReqQ = false) (q : List Request) : c.Knows r maxQueueTime q := by
  cases c with
  | asleep | locking => trivial
  | _ => cases h

namespace Process

variable {W : Type}

/-- The thread is in the section of `req_q_mtx`. -/
def inReqQ (p : Process W) : Thread W → Bool
  | .main => p.main.inReqQ
  | .worker w => (p.worker w).inReqQ
  | .reqQueueMgr => p.reqQueueMgr.inReqQ
  | .excdTmQMgr => false

/-- The thread is in the section of `excd_tm_mtx`. -/
def inExcdTmQ (p : Process W) : Thread W → Bool
  | .reqQueueMgr => p.reqQueueMgr.inExcdTmQ
  | .excdTmQMgr => p.excdTmQMgr.inExcdTmQ
  | _ => false

/-- The mutexes are owned by the threads in their sections. -/
structure Coherent (r : Rounding) (maxQueueTime : Int) (p : Process W) : Prop where
  reqQ : Guards p.reqQMtx p.inReqQ
  excdTmQ : Guards p.excdTmMtx p.inExcdTmQ
  knows : p.reqQueueMgr.Knows r maxQueueTime p.reqQ

variable [DecidableEq W] {r : Rounding} {maxQueueTime : Int} {p p' : Process W} {e : Event W}

/-- The other threads stay where they are. -/
theorem Step.others (h : Step r maxQueueTime p e p') {t : Thread W} (ht : t ≠ e.thread) :
    p'.inReqQ t = p.inReqQ t ∧ p'.inExcdTmQ t = p.inExcdTmQ t := by
  cases t with
  | worker v =>
    refine ⟨?_, rfl⟩
    have hv : ∀ w, e.thread = .worker w → v ≠ w := fun w he hvw => ht (by rw [he, hvw])
    cases h with
    | workerWait w | workerEarly w | workerLock w | workerDequeue w | workerNone w | workerTake w
    | workerServe w | workerClose w => simp [inReqQ, hv w rfl]
    | _ => rfl
  | main =>
    cases h with
    | accept | mainLock | mainEnqueue | mainUnlock | mainPost => exact absurd rfl ht
    | _ => exact ⟨rfl, rfl⟩
  | reqQueueMgr =>
    cases h with
    | wake | mgrLock | mgrRead | mgrLook | mgrNone | mgrYoung | mgrOld | mgrDequeue | mgrLockExcd
    | mgrEnqueue | mgrUnlockExcd | mgrPost | mgrUnlock => exact absurd rfl ht
    | _ => exact ⟨rfl, rfl⟩
  | excdTmQMgr =>
    cases h with
    | excdWait | excdEarly | excdLock | excdDequeue | excdNone | excdTake | excdSend | excdClose =>
      exact absurd rfl ht
    | _ => exact ⟨rfl, rfl⟩

/-- What a call does with `req_q_mtx`. -/
theorem Step.turn_reqQ (h : Step r maxQueueTime p e p') :
    Turn e.thread p.reqQMtx (p.inReqQ e.thread) p'.reqQMtx (p'.inReqQ e.thread) := by
  cases h with
  | mainLock fd fd' ts ts' hc hm =>
    simpa [Event.thread, inReqQ, hc, hm, MainCode.inReqQ] using Turn.lock
  | workerLock w early hc hm =>
    simpa [Event.thread, inReqQ, hc, hm, WorkerCode.inReqQ, setWorker] using Turn.lock
  | mgrLock tm hc hm =>
    simpa [Event.thread, inReqQ, hc, hm, ReqQueueMgrCode.inReqQ] using Turn.lock
  | mainUnlock fd ts hc =>
    simpa [Event.thread, inReqQ, hc, MainCode.inReqQ] using Turn.unlock _
  | workerNone w early hc | workerTake w early rq hc =>
    simpa [Event.thread, inReqQ, hc, WorkerCode.inReqQ, setWorker] using Turn.unlock _
  | mgrUnlock tm hc =>
    simpa [Event.thread, inReqQ, hc, ReqQueueMgrCode.inReqQ] using Turn.unlock _
  | accept fd ts hc | mainPost fd ts hc =>
    simpa [Event.thread, inReqQ, hc, MainCode.inReqQ] using Turn.stay _ _
  | mainEnqueue fd fd' ts ts' hc =>
    simpa [Event.thread, inReqQ, hc, MainCode.inReqQ] using Turn.stay _ _
  | workerWait w hc | workerEarly w hc | workerDequeue w early hc | workerServe w early rq hc
  | workerClose w early rq hc =>
    simpa [Event.thread, inReqQ, hc, WorkerCode.inReqQ, setWorker] using Turn.stay _ _
  | wake tm hc | mgrRead tm hc | mgrLook tm currTm hc | mgrNone tm currTm hc
  | mgrYoung tm currTm rq hc | mgrOld tm currTm rq hc | mgrDequeue tm currTm rq hc
  | mgrLockExcd tm currTm rq hc | mgrEnqueue tm currTm rq hc | mgrUnlockExcd tm currTm hc
  | mgrPost tm currTm hc =>
    simpa [Event.thread, inReqQ, hc, ReqQueueMgrCode.inReqQ] using Turn.stay _ _
  | excdWait | excdEarly | excdLock | excdDequeue | excdNone | excdTake | excdSend | excdClose =>
    exact .stay _ _

/-- What a call does with `excd_tm_mtx`. -/
theorem Step.turn_excdTmQ (h : Step r maxQueueTime p e p') :
    Turn e.thread p.excdTmMtx (p.inExcdTmQ e.thread) p'.excdTmMtx (p'.inExcdTmQ e.thread) := by
  cases h with
  | mgrLockExcd tm currTm rq hc hm =>
    simpa [Event.thread, inExcdTmQ, hc, hm, ReqQueueMgrCode.inExcdTmQ] using Turn.lock
  | excdLock early hc hm =>
    simpa [Event.thread, inExcdTmQ, hc, hm, ExcdTmQMgrCode.inExcdTmQ] using Turn.lock
  | mgrUnlockExcd tm currTm hc =>
    simpa [Event.thread, inExcdTmQ, hc, ReqQueueMgrCode.inExcdTmQ] using Turn.unlock _
  | excdNone early hc | excdTake early rq hc =>
    simpa [Event.thread, inExcdTmQ, hc, ExcdTmQMgrCode.inExcdTmQ] using Turn.unlock _
  | wake tm hc | mgrLock tm hc | mgrRead tm hc | mgrLook tm currTm hc | mgrNone tm currTm hc
  | mgrYoung tm currTm rq hc | mgrOld tm currTm rq hc | mgrDequeue tm currTm rq hc
  | mgrEnqueue tm currTm rq hc | mgrPost tm currTm hc | mgrUnlock tm hc =>
    simpa [Event.thread, inExcdTmQ, hc, ReqQueueMgrCode.inExcdTmQ] using Turn.stay _ _
  | excdWait hc | excdEarly hc | excdDequeue early hc | excdSend early rq hc
  | excdClose early rq hc =>
    simpa [Event.thread, inExcdTmQ, hc, ExcdTmQMgrCode.inExcdTmQ] using Turn.stay _ _
  | accept | mainLock | mainEnqueue | mainUnlock | mainPost | workerWait | workerEarly | workerLock
  | workerDequeue | workerNone | workerTake | workerServe | workerClose =>
    exact .stay _ _

/-- The request queue is changed by the thread in its section only. -/
theorem Step.reqQ_eq (h : Step r maxQueueTime p e p') (hout : p.inReqQ e.thread = false) :
    p'.reqQ = p.reqQ := by
  cases h with
  | mainEnqueue fd fd' ts ts' hc => simp [Event.thread, inReqQ, hc, MainCode.inReqQ] at hout
  | workerDequeue w early hc => simp [Event.thread, inReqQ, hc, WorkerCode.inReqQ] at hout
  | mgrDequeue tm currTm rq hc => simp [Event.thread, inReqQ, hc, ReqQueueMgrCode.inReqQ] at hout
  | _ => rfl

/-- The queue of the timed-out requests too. -/
theorem Step.excdTmQ_eq (h : Step r maxQueueTime p e p') (hout : p.inExcdTmQ e.thread = false) :
    p'.excdTmQ = p.excdTmQ := by
  cases h with
  | mgrEnqueue tm currTm rq hc =>
    simp [Event.thread, inExcdTmQ, hc, ReqQueueMgrCode.inExcdTmQ] at hout
  | excdDequeue early hc => simp [Event.thread, inExcdTmQ, hc, ExcdTmQMgrCode.inExcdTmQ] at hout
  | _ => rfl

/-- A call of another thread leaves the manager where it is. -/
theorem Step.reqQueueMgr_eq (h : Step r maxQueueTime p e p') (he : e.thread ≠ .reqQueueMgr) :
    p'.reqQueueMgr = p.reqQueueMgr := by
  cases h with
  | wake | mgrLock | mgrRead | mgrLook | mgrNone | mgrYoung | mgrOld | mgrDequeue | mgrLockExcd
  | mgrEnqueue | mgrUnlockExcd | mgrPost | mgrUnlock => exact absurd rfl he
  | _ => rfl

/-- What the manager knows stays true: while it is in its section, the others do not change the
queue. -/
theorem Step.knows (h : Step r maxQueueTime p e p') (hp : p.Coherent r maxQueueTime) :
    p'.reqQueueMgr.Knows r maxQueueTime p'.reqQ := by
  by_cases he : e.thread = .reqQueueMgr
  · have hk := hp.knows
    cases h with
    | mgrOld tm currTm rq hc ht =>
      rw [hc] at hk
      exact ⟨hk, ht⟩
    | mgrDequeue tm currTm rq hc =>
      rw [hc] at hk
      exact hk.2
    | mgrLockExcd tm currTm rq hc =>
      rw [hc] at hk
      exact hk
    | mgrLook => rfl
    | wake | mgrLock | mgrRead | mgrNone | mgrYoung | mgrEnqueue | mgrUnlockExcd | mgrPost
    | mgrUnlock => trivial
    | _ => cases he
  · rw [h.reqQueueMgr_eq he]
    cases hm : p.reqQueueMgr.inReqQ with
    | false => exact ReqQueueMgrCode.knows_of_out hm _
    | true =>
      have hout : p.inReqQ e.thread = false := by
        apply Bool.eq_false_iff.mpr
        intro hin
        exact he (hp.reqQ.unique hin hm)
      rw [h.reqQ_eq hout]
      exact hp.knows

end Process

theorem coherent_inductive {W : Type} [DecidableEq W] {r : Rounding} {maxQueueTime : Int} :
    (processSys W r maxQueueTime).Inductive (Process.Coherent r maxQueueTime) where
  init p hp := by
    subst hp
    refine ⟨fun t => ?_, fun t => ?_, trivial⟩
    · cases t <;> exact ⟨fun h => absurd h.symm (Option.some_ne_none _), Bool.noConfusion⟩
    · cases t <;> exact ⟨fun h => absurd h.symm (Option.some_ne_none _), Bool.noConfusion⟩
  step e p p' hp h := by
    have hst := Process.step_cases h
    exact ⟨hp.reqQ.turn hst.turn_reqQ fun t ht => (hst.others ht).1,
      hp.excdTmQ.turn hst.turn_excdTmQ fun t ht => (hst.others ht).2, hst.knows hp⟩

/-! ## The sections as single steps -/

/-- The accept loop of `Server`: its section is the step `accept`, taken at `enqueue`. -/
def MainCode.seen : MainCode → Main
  | accepting | locking _ _ | enqueuing _ _ => .idle
  | unlocking | posting => .posting

/-- A worker of `Server`: its section is the step `workerDequeue`, taken at `dequeue`. -/
def WorkerCode.seen : WorkerCode → AppWorker
  | waiting | unlocking none => .waiting
  | locking | dequeuing => .passed
  | unlocking (some rq) | holding rq => .holding rq
  | serving rq => .serving rq

/-- The manager of `Server` begins a sweep when it has read the clock. Its step `sweepStep` is taken
where it sees that the sweep ends, or at the `enqueue` of a request. -/
def ReqQueueMgrCode.seen : ReqQueueMgrCode → ReqQueueMgr
  | asleep | locking | reading | unlocking => .asleep
  | looking currTm | checking currTm _ | dequeuing currTm _ | lockingExcd currTm _
  | enqueuing currTm _ => .sweeping currTm
  | unlockingExcd currTm | posting currTm => .posting currTm

/-- The request that it has taken out of one queue and not yet put into the other. -/
def ReqQueueMgrCode.between : ReqQueueMgrCode → List Request
  | lockingExcd _ rq | enqueuing _ rq => [rq]
  | _ => []

def ExcdTmQMgrCode.seen : ExcdTmQMgrCode → ExcdTmQMgr
  | waiting | unlocking none => .waiting
  | locking | dequeuing => .passed
  | unlocking (some rq) | holding rq => .holding rq
  | sent rq => .sent rq

/-- Outside its section the manager is asleep, with no request. -/
theorem ReqQueueMgrCode.seen_of_out {c : ReqQueueMgrCode} (h : c.inReqQ = false) :
    c.seen = .asleep ∧ c.between = [] := by
  cases c with
  | asleep | locking => exact ⟨rfl, rfl⟩
  | _ => cases h

namespace Process

variable {W : Type}

/-- The state with the sections as single steps. -/
def server (p : Process W) : Server W where
  reqQ := p.reqQueueMgr.between ++ p.reqQ
  reqQSem := p.reqQSem
  excdTmQ := p.excdTmQ
  excdTmSem := p.excdTmSem
  main := p.main.seen
  worker w := (p.worker w).seen
  reqQueueMgr := p.reqQueueMgr.seen
  excdTmQMgr := p.excdTmQMgr.seen
  accepted := p.accepted
  handed := p.handed
  timedOut := p.timedOut
  served := p.served
  rejected := p.rejected

/-- Where another thread is in the section of the request queue, the manager is not. -/
theorem Coherent.mgr_out {r : Rounding} {maxQueueTime : Int} {p : Process W}
    (hp : p.Coherent r maxQueueTime) {t : Thread W} (ht : p.inReqQ t = true)
    (hne : t ≠ .reqQueueMgr) : p.reqQueueMgr.seen = .asleep ∧ p.reqQueueMgr.between = [] := by
  apply ReqQueueMgrCode.seen_of_out
  apply Bool.eq_false_iff.mpr
  intro hm
  exact hne (hp.reqQ.unique ht hm)

variable [DecidableEq W] {r : Rounding} {maxQueueTime : Int} {p p' : Process W} {e : Event W}

theorem seen_setWorker (p : Process W) (w : W) (x : WorkerCode) :
    (fun v => ((p.setWorker w x).worker v).seen) =
      Function.update (fun v => (p.worker v).seen) w x.seen := by
  funext v
  by_cases hv : v = w
  · subst hv
    simp
  · simp [hv]

theorem server_setWorker (p : Process W) (w : W) (x : WorkerCode) :
    (p.setWorker w x).server = p.server.setWorker w x.seen := by
  unfold server Server.setWorker
  rw [seen_setWorker]
  rfl

/-- A worker that is seen where it was. -/
theorem server_setWorker_same {w : W} {x : WorkerCode} (h : x.seen = (p.worker w).seen) :
    (p.setWorker w x).server = p.server := by
  rw [server_setWorker, h]
  exact congrArg (fun f => { p.server with worker := f }) (Function.update_eq_self w _)

/-- A call is a step of `Server`, or it is not seen there. -/
theorem Step.refines (h : Step r maxQueueTime p e p') (hp : p.Coherent r maxQueueTime) :
    p'.server = p.server ∨ ∃ a, p.server.step r maxQueueTime a = some p'.server := by
  cases h with
  | accept fd ts hc | mainLock fd fd' ts ts' hc hm | mainUnlock fd ts hc =>
    -- the section of the accept loop is seen as one step, at its `enqueue`
    left
    simp [server, hc, MainCode.seen]
  | mainEnqueue fd fd' ts ts' hc =>
    right
    -- the manager is not in a sweep: it would hold the mutex that the accept loop has
    have hin : p.inReqQ .main = true := by simp [inReqQ, hc, MainCode.inReqQ]
    obtain ⟨hm, hb⟩ := hp.mgr_out hin (by simp)
    refine ⟨.accept fd ts, ?_⟩
    simp [server, Server.step, Server.Unlocked, hc, hm, hb, MainCode.seen]
  | mainPost fd ts hc =>
    right
    refine ⟨.acceptPost, ?_⟩
    simp [server, Server.step, hc, MainCode.seen]
  | workerWait w hc hs =>
    right
    refine ⟨.workerWait w, ?_⟩
    rw [server_setWorker]
    exact if_pos ⟨by simp [server, hc, WorkerCode.seen], hs⟩
  | workerEarly w hc =>
    right
    refine ⟨.workerEarly w, ?_⟩
    rw [server_setWorker]
    exact if_pos (by simp [server, hc, WorkerCode.seen])
  | workerLock w early hc hm =>
    left
    exact server_setWorker_same (p := { p with reqQMtx := some (.worker w) })
      (by simp [hc, WorkerCode.seen])
  | workerDequeue w early hc =>
    right
    have hin : p.inReqQ (.worker w) = true := by simp [inReqQ, hc, WorkerCode.inReqQ]
    obtain ⟨hm, hb⟩ := hp.mgr_out hin (by simp)
    refine ⟨.workerDequeue w, ?_⟩
    rw [server_setWorker, Server.step, if_pos ⟨by simp [server, hc, WorkerCode.seen], hm⟩]
    -- `dequeue` of an empty queue is a step too: the worker goes back to `sem_wait`
    cases hq : p.reqQ with
    | nil => simp [server, hb, hq, WorkerCode.seen]
    | cons rq q => simp [server, hb, hq, WorkerCode.seen]
  | workerNone w early hc =>
    left
    exact server_setWorker_same (p := { p with reqQMtx := none }) (by simp [hc, WorkerCode.seen])
  | workerTake w early rq hc =>
    left
    exact server_setWorker_same (p := { p with reqQMtx := none }) (by simp [hc, WorkerCode.seen])
  | workerServe w early rq hc =>
    right
    refine ⟨.workerServe w, ?_⟩
    rw [server_setWorker]
    simp [server, Server.step, hc, WorkerCode.seen]
  | workerClose w early rq hc =>
    right
    refine ⟨.workerClose w, ?_⟩
    rw [server_setWorker]
    simp [server, Server.step, hc, WorkerCode.seen]
  | wake tm hc | mgrLock tm hc hm | mgrLook tm currTm hc | mgrOld tm currTm rq hc ht
  | mgrLockExcd tm currTm rq hc hm | mgrUnlockExcd tm currTm hc | mgrUnlock tm hc =>
    -- a sweep begins with its clock reading; locks and looks at the front are not seen
    left
    simp [server, hc, ReqQueueMgrCode.seen, ReqQueueMgrCode.between]
  | mgrRead tm hc =>
    right
    refine ⟨.sweep tm, ?_⟩
    simp [server, Server.step, hc, ReqQueueMgrCode.seen, ReqQueueMgrCode.between]
  | mgrNone tm currTm hc =>
    right
    -- what the manager saw at the front is still there, as it holds `req_q_mtx`
    have hk := hp.knows
    rw [hc] at hk
    refine ⟨.sweepStep, ?_⟩
    simp only [ReqQueueMgrCode.Knows] at hk
    simp [server, Server.step, Server.sweepStep, hc, hk, ReqQueueMgrCode.seen,
      ReqQueueMgrCode.between]
  | mgrYoung tm currTm rq hc ht =>
    right
    have hk := hp.knows
    rw [hc] at hk
    refine ⟨.sweepStep, ?_⟩
    simp only [ReqQueueMgrCode.Knows] at hk
    simp [server, Server.step, Server.sweepStep, hc, hk, ht, ReqQueueMgrCode.seen,
      ReqQueueMgrCode.between]
  | mgrDequeue tm currTm rq hc =>
    -- the request that it has taken counts as the front until it is in the other queue
    left
    have hk := hp.knows
    rw [hc] at hk
    obtain ⟨q, hq⟩ := List.head?_eq_some_iff.mp hk.1
    simp [server, hc, hq, ReqQueueMgrCode.seen, ReqQueueMgrCode.between]
  | mgrEnqueue tm currTm rq hc =>
    right
    have hk := hp.knows
    rw [hc] at hk
    refine ⟨.sweepStep, ?_⟩
    simp only [ReqQueueMgrCode.Knows] at hk
    simp [server, Server.step, Server.sweepStep, hc, hk, ReqQueueMgrCode.seen,
      ReqQueueMgrCode.between]
  | mgrPost tm currTm hc =>
    right
    refine ⟨.sweepPost, ?_⟩
    simp [server, Server.step, hc, ReqQueueMgrCode.seen, ReqQueueMgrCode.between]
  | excdWait hc hs =>
    right
    refine ⟨.excdWait, ?_⟩
    simp [server, Server.step, hc, hs, ExcdTmQMgrCode.seen]
  | excdEarly hc =>
    right
    refine ⟨.excdEarly, ?_⟩
    simp [server, Server.step, hc, ExcdTmQMgrCode.seen]
  | excdLock early hc hm | excdNone early hc | excdTake early rq hc =>
    left
    simp [server, hc, ExcdTmQMgrCode.seen]
  | excdDequeue early hc =>
    right
    refine ⟨.excdDequeue, ?_⟩
    -- as for a worker, also when there is nothing to take
    cases hq : p.excdTmQ with
    | nil => simp [server, Server.step, hc, hq, ExcdTmQMgrCode.seen]
    | cons rq q => simp [server, Server.step, hc, hq, ExcdTmQMgrCode.seen]
  | excdSend early rq hc =>
    right
    refine ⟨.excdSend, ?_⟩
    simp [server, Server.step, hc, ExcdTmQMgrCode.seen]
  | excdClose early rq hc =>
    right
    refine ⟨.excdClose, ?_⟩
    simp [server, Server.step, hc, ExcdTmQMgrCode.seen]

end Process

theorem refines_server {W : Type} [DecidableEq W] {r : Rounding} {maxQueueTime : Int} :
    (processSys W r maxQueueTime).Refines (serverSys W r maxQueueTime)
      (Process.Coherent r maxQueueTime) Process.server where
  init p hp := by
    subst hp
    rfl
  step e p p' hp h := (Process.step_cases h).refines hp

/-! ## The owners free the mutexes -/

/-- The calls that are left in the section. -/
def MainCode.left : MainCode → Nat
  | enqueuing _ _ => 2
  | unlocking => 1
  | _ => 0

def WorkerCode.left : WorkerCode → Nat
  | dequeuing => 2
  | unlocking _ => 1
  | _ => 0

/-- The calls that are left in the section, when the queue has `n` requests: seven for each that is
moved at most. -/
def ReqQueueMgrCode.left (n : Nat) : ReqQueueMgrCode → Nat
  | asleep | locking => 0
  | reading => 7 * n + 4
  | looking _ => 7 * n + 3
  | checking _ _ => 7 * n + 2
  | dequeuing _ _ => 7 * n + 1
  | lockingExcd _ _ => 7 * n + 7
  | enqueuing _ _ => 7 * n + 6
  | unlockingExcd _ => 7 * n + 5
  | posting _ => 7 * n + 4
  | unlocking => 1

def ExcdTmQMgrCode.left : ExcdTmQMgrCode → Nat
  | dequeuing => 2
  | unlocking _ => 1
  | _ => 0

namespace Process

variable {W : Type}

/-- The calls that the owner of `req_q_mtx` has left in its section. -/
def leftReqQ (p : Process W) : Nat :=
  match p.reqQMtx with
  | none => 0
  | some .main => p.main.left
  | some (.worker w) => (p.worker w).left
  | some .reqQueueMgr => p.reqQueueMgr.left p.reqQ.length
  | some .excdTmQMgr => 0

/-- The calls that are left in both sections. -/
def left (p : Process W) : Nat := p.leftReqQ + p.excdTmQMgr.left

/-- The thread owns a mutex. -/
def Owner (e : Event W) (p : Process W) : Prop :=
  p.reqQMtx = some e.thread ∨ p.excdTmMtx = some e.thread

/-- Nobody owns a mutex. -/
def Free (p : Process W) : Prop := p.reqQMtx = none ∧ p.excdTmMtx = none

theorem left_le (p : Process W) : p.left ≤ 7 * p.reqQ.length + 9 := by
  have hexcd : p.excdTmQMgr.left ≤ 2 := by
    cases p.excdTmQMgr <;> simp [ExcdTmQMgrCode.left]
  have hreq : p.leftReqQ ≤ 7 * p.reqQ.length + 7 := by
    unfold leftReqQ
    split
    · omega
    · cases p.main <;> simp [MainCode.left]
    · rename_i w _
      cases p.worker w <;> simp [WorkerCode.left]
    · cases p.reqQueueMgr <;> simp [ReqQueueMgrCode.left]
    · omega
  unfold left
  omega

variable {r : Rounding} {maxQueueTime : Int} {p p' : Process W} {e : Event W}

/-- The owner of a mutex is in a section. -/
theorem Coherent.of_owner (hp : p.Coherent r maxQueueTime) (ho : Owner e p) :
    p.inReqQ e.thread = true ∨ p.inExcdTmQ e.thread = true :=
  ho.imp (hp.reqQ e.thread).mp (hp.excdTmQ e.thread).mp

/-- In the section of `excd_tm_mtx` the manager of the request queue is in that of `req_q_mtx`. -/
theorem ReqQueueMgrCode.inReqQ_of_inExcdTmQ {c : ReqQueueMgrCode} (h : c.inExcdTmQ = true) :
    c.inReqQ = true := by
  cases c with
  | enqueuing | unlockingExcd => rfl
  | _ => cases h

variable [DecidableEq W]

/-- A call of an owner leaves one call less. -/
theorem Step.left_lt (h : Step r maxQueueTime p e p') (hp : p.Coherent r maxQueueTime)
    (ho : Owner e p) : p'.left < p.left := by
  have hin := hp.of_owner ho
  have hr := hp.reqQ
  cases h with
  | accept fd ts hc | mainLock fd fd' ts ts' hc hm | mainPost fd ts hc =>
    -- outside a section, so not a step of an owner
    simp [Event.thread, inReqQ, inExcdTmQ, hc, MainCode.inReqQ] at hin
  | mainEnqueue fd fd' ts ts' hc =>
    have hm : p.reqQMtx = some .main := (hr _).mpr (by simp [inReqQ, hc, MainCode.inReqQ])
    simp [left, leftReqQ, hm, hc, MainCode.left]
  | mainUnlock fd ts hc =>
    have hm : p.reqQMtx = some .main := (hr _).mpr (by simp [inReqQ, hc, MainCode.inReqQ])
    simp [left, leftReqQ, hm, hc, MainCode.left]
  | workerWait w hc | workerEarly w hc | workerLock w early hc | workerServe w early rq hc
  | workerClose w early rq hc =>
    simp [Event.thread, inReqQ, inExcdTmQ, hc, WorkerCode.inReqQ] at hin
  | workerDequeue w early hc =>
    have hm : p.reqQMtx = some (.worker w) := (hr _).mpr (by simp [inReqQ, hc, WorkerCode.inReqQ])
    simp [left, leftReqQ, hm, hc, WorkerCode.left, setWorker]
  | workerNone w early hc | workerTake w early rq hc =>
    have hm : p.reqQMtx = some (.worker w) := (hr _).mpr (by simp [inReqQ, hc, WorkerCode.inReqQ])
    simp [left, leftReqQ, hm, hc, WorkerCode.left, setWorker]
  | wake tm hc | mgrLock tm hc =>
    simp [Event.thread, inReqQ, inExcdTmQ, hc, ReqQueueMgrCode.inReqQ,
      ReqQueueMgrCode.inExcdTmQ] at hin
  | mgrRead tm hc | mgrLook tm currTm hc | mgrNone tm currTm hc | mgrYoung tm currTm rq hc
  | mgrOld tm currTm rq hc | mgrLockExcd tm currTm rq hc | mgrEnqueue tm currTm rq hc
  | mgrUnlockExcd tm currTm hc | mgrPost tm currTm hc | mgrUnlock tm hc =>
    have hm : p.reqQMtx = some .reqQueueMgr :=
      (hr _).mpr (by simp [inReqQ, hc, ReqQueueMgrCode.inReqQ])
    simp [left, leftReqQ, hm, hc, ReqQueueMgrCode.left]
  | mgrDequeue tm currTm rq hc =>
    have hm : p.reqQMtx = some .reqQueueMgr :=
      (hr _).mpr (by simp [inReqQ, hc, ReqQueueMgrCode.inReqQ])
    have hk := hp.knows
    rw [hc] at hk
    obtain ⟨q, hq⟩ := List.head?_eq_some_iff.mp hk.1
    -- the sweep is bounded by the length of the queue, which this call shortens
    simp [left, leftReqQ, hm, hc, hq, ReqQueueMgrCode.left]
    omega
  | excdWait hc | excdEarly hc | excdLock early hc | excdSend early rq hc
  | excdClose early rq hc =>
    simp [Event.thread, inReqQ, inExcdTmQ, hc, ExcdTmQMgrCode.inExcdTmQ] at hin
  | excdDequeue early hc | excdNone early hc | excdTake early rq hc =>
    simp [left, leftReqQ, hc, ExcdTmQMgrCode.left]

/-- The manager of the timed-out requests does not block in its section. -/
theorem exists_excd_step (h : p.excdTmQMgr.inExcdTmQ = true) :
    ∃ p', p.step r maxQueueTime (.excdTmQMgr false) = some p' := by
  simp only [step, stepExcdTmQMgr]
  cases hc : p.excdTmQMgr with
  | dequeuing => exact ⟨_, rfl⟩
  | unlocking rq => cases rq <;> exact ⟨_, rfl⟩
  | _ =>
    rw [hc] at h
    cases h

/-- The manager of the request queue blocks in its section at `excd_tm_mtx` only. -/
theorem exists_mgr_step (h : p.reqQueueMgr.inReqQ = true)
    (hm : (∃ currTm rq, p.reqQueueMgr = .lockingExcd currTm rq) → p.excdTmMtx = none) :
    ∃ p', p.step r maxQueueTime (.reqQueueMgr ⟨0, 0⟩) = some p' := by
  simp only [step, stepReqQueueMgr]
  cases hc : p.reqQueueMgr with
  | asleep | locking =>
    rw [hc] at h
    cases h
  | checking currTm request =>
    cases request with
    | none => exact ⟨_, rfl⟩
    | some rq =>
      by_cases ht : wasWaitingTimeExceeded r (getTimeDiff currTm rq.ts) 1 maxQueueTime = true
      · exact ⟨_, if_neg (by simp [ht])⟩
      · exact ⟨_, if_pos (by simp [ht])⟩
  | lockingExcd currTm rq => exact ⟨_, if_pos (hm ⟨currTm, rq, hc⟩)⟩
  | _ => exact ⟨_, rfl⟩

/-- While a mutex is owned, an owner does not block. -/
theorem Coherent.exists_owner_step (hp : p.Coherent r maxQueueTime) (hf : ¬ p.Free) :
    ∃ e p', Owner e p ∧ p.step r maxQueueTime e = some p' := by
  cases he : p.excdTmQMgr.inExcdTmQ with
  | true =>
    obtain ⟨p', h⟩ : ∃ p', p.step r maxQueueTime (.excdTmQMgr false) = some p' :=
      exists_excd_step he
    exact ⟨.excdTmQMgr false, p', .inr ((hp.excdTmQ _).mpr he), h⟩
  | false =>
    -- `excd_tm_mtx` is free, or the manager of the request queue owns it
    have hexcd : p.excdTmMtx = none ∨ p.reqQueueMgr.inExcdTmQ = true := by
      cases hm : p.excdTmMtx with
      | none => exact .inl rfl
      | some t =>
        have ht := (hp.excdTmQ t).mp hm
        cases t with
        | reqQueueMgr => exact .inr ht
        | excdTmQMgr =>
          rw [show p.inExcdTmQ .excdTmQMgr = p.excdTmQMgr.inExcdTmQ from rfl, he] at ht
          cases ht
        | main | worker => cases ht
    cases hm : p.reqQMtx with
    | none =>
      -- then it is `excd_tm_mtx` that is owned, by a thread that has `req_q_mtx` too
      have hmgr : p.reqQueueMgr.inExcdTmQ = true := hexcd.resolve_left fun hn => hf ⟨hm, hn⟩
      have hin := (hp.reqQ .reqQueueMgr).mpr (ReqQueueMgrCode.inReqQ_of_inExcdTmQ hmgr)
      rw [hm] at hin
      cases hin
    | some t =>
      have ht := (hp.reqQ t).mp hm
      cases t with
      | main =>
        refine ⟨.main 0 ⟨0, 0⟩, ?_⟩
        simp only [inReqQ] at ht
        cases hc : p.main with
        | enqueuing fd ts => exact ⟨_, .inl hm, by simp only [step, stepMain, hc]; rfl⟩
        | unlocking => exact ⟨_, .inl hm, by simp only [step, stepMain, hc]; rfl⟩
        | _ =>
          rw [hc] at ht
          cases ht
      | worker w =>
        refine ⟨.worker w false, ?_⟩
        simp only [inReqQ] at ht
        cases hc : p.worker w with
        | dequeuing => exact ⟨_, .inl hm, by simp only [step, stepWorker, hc]; rfl⟩
        | unlocking rq =>
          cases rq with
          | none => exact ⟨_, .inl hm, by simp only [step, stepWorker, hc]; rfl⟩
          | some rq => exact ⟨_, .inl hm, by simp only [step, stepWorker, hc]; rfl⟩
        | _ =>
          rw [hc] at ht
          cases ht
      | reqQueueMgr =>
        -- it waits for `excd_tm_mtx` at most, and then that one is free: no deadlock
        have hblock : (∃ currTm rq, p.reqQueueMgr = .lockingExcd currTm rq) →
            p.excdTmMtx = none := by
          rintro ⟨currTm, rq, hc⟩
          refine hexcd.resolve_right fun hmgr => ?_
          rw [hc] at hmgr
          cases hmgr
        obtain ⟨p', h⟩ : ∃ p', p.step r maxQueueTime (.reqQueueMgr ⟨0, 0⟩) = some p' :=
          exists_mgr_step ht hblock
        exact ⟨.reqQueueMgr ⟨0, 0⟩, p', .inl hm, h⟩
      | excdTmQMgr => cases ht

end Process

section Main

variable {W : Type} [DecidableEq W] {r : Rounding} {maxQueueTime : Int} {p : Process W}

/-- In every state that the threads reach, however their calls interleave: a mutex is owned by the
thread in its section, which is one at most; a call that changes a queue is one of the owner of its
mutex; and the state, with the sections as single steps, is one that the threads of `Server` reach. -/
theorem process_refines (hp : (processSys W r maxQueueTime).Reach p) :
    (∀ t, p.reqQMtx = some t ↔ p.inReqQ t = true) ∧
      (∀ t, p.excdTmMtx = some t ↔ p.inExcdTmQ t = true) ∧
      (∀ e p', p.step r maxQueueTime e = some p' →
        (p'.reqQ ≠ p.reqQ → p.reqQMtx = some e.thread) ∧
        (p'.excdTmQ ≠ p.excdTmQ → p.excdTmMtx = some e.thread)) ∧
      (serverSys W r maxQueueTime).Reach p.server := by
  have h := coherent_inductive.reach hp
  refine ⟨h.reqQ, h.excdTmQ, fun e p' hst => ⟨fun hne => ?_, fun hne => ?_⟩,
    refines_server.reach coherent_inductive hp⟩
  · apply (h.reqQ _).mpr
    by_contra hout
    exact hne ((Process.step_cases hst).reqQ_eq (Bool.not_eq_true _ ▸ hout))
  · apply (h.excdTmQ _).mpr
    by_contra hout
    exact hne ((Process.step_cases hst).excdTmQ_eq (Bool.not_eq_true _ ▸ hout))

/-- Two clients. The manager of the request queue has taken the second one's request out of the queue
and waits for `excd_tm_mtx`, which the other manager owns. -/
def twoMoved : List (Event (Fin 2)) :=
  List.replicate 5 (.main 4 ⟨0, 0⟩) ++ List.replicate 5 (.main 5 ⟨0, 0⟩) ++
    List.replicate 13 (.reqQueueMgr ⟨3, 0⟩) ++ [.excdTmQMgr false, .excdTmQMgr false]

theorem twoMoved_isSome : (Process.run .exact 5 .start twoMoved).isSome = true := by
  decide +kernel

theorem twoMoved_refines :
    ∃ p, Process.run .exact 5 .start twoMoved = some p ∧ p.reqQ = [] ∧
      p.server.reqQ = [⟨1, 5, ⟨0, 0⟩⟩] ∧ p.inExcdTmQ .excdTmQMgr = true ∧
      (serverSys (Fin 2) .exact 5).Reach p.server := by
  have hp := (Option.some_get twoMoved_isSome).symm
  obtain ⟨-, hexcd, -, hr⟩ := process_refines (Process.reach_run (.init rfl) hp)
  refine ⟨_, hp, by decide +kernel, by decide +kernel, ?_, hr⟩
  exact (hexcd .excdTmQMgr).mp (by decide +kernel)

/-- From every state that the threads reach, calls of threads that own a mutex lead to a state in
which both are free, and such calls cannot go on for longer: seven for each request in the queue and
nine more at most. So no thread waits for a mutex for ever. -/
theorem mutexes_freed (hp : (processSys W r maxQueueTime).Reach p) :
    (∃ n p', n ≤ 7 * p.reqQ.length + 9 ∧
      (processSys W r maxQueueTime).Run Process.Owner n p p' ∧ p'.Free) ∧
    ∀ n p', (processSys W r maxQueueTime).Run Process.Owner n p p' →
      n ≤ 7 * p.reqQ.length + 9 := by
  have h := coherent_inductive.reach hp
  constructor
  · have hless : ∀ q : Process W, q.Coherent r maxQueueTime → ¬ q.Free → ∃ e q',
        Process.Owner e q ∧ q.step r maxQueueTime e = some q' ∧ q'.left < q.left := by
      intro q hq hnf
      obtain ⟨e, q', ho, hst⟩ := hq.exists_owner_step hnf
      exact ⟨e, q', ho, hst, (Process.step_cases hst).left_lt hq ho⟩
    obtain ⟨n, p', hn, hrun, hfree⟩ :=
      Sys.exists_run_of_measure coherent_inductive Process.left hless h
    exact ⟨n, p', hn.trans p.left_le, hrun, hfree⟩
  · intro n p' hrun
    refine le_trans ?_ p.left_le
    clear hp
    induction hrun with
    | done p => exact Nat.zero_le _
    | @step n p q u e ho hst hrun ih =>
      have hlt := (Process.step_cases hst).left_lt h ho
      have hle := ih (coherent_inductive.step e p q h hst)
      omega

/-- The manager of the request queue is blocked, with a mutex; both are freed. -/
theorem twoMoved_freed :
    ∃ p, Process.run .exact 5 .start twoMoved = some p ∧ p.reqQMtx = some .reqQueueMgr ∧
      (p.step .exact 5 (.reqQueueMgr ⟨3, 0⟩)).isNone = true ∧
      ∃ n p', n ≤ 9 ∧ (processSys (Fin 2) .exact 5).Run Process.Owner n p p' ∧ p'.Free := by
  have hp := (Option.some_get twoMoved_isSome).symm
  obtain ⟨n, p', hn, hrun, hfree⟩ := (mutexes_freed (Process.reach_run (.init rfl) hp)).1
  refine ⟨_, hp, by decide +kernel, by decide +kernel, n, p', hn.trans ?_, hrun, hfree⟩
  decide +kernel

end Main

end RedisImpl
