import RedisImpl.Lib.Simulation
import RedisImpl.Server.Places
import RedisImpl.Server.Wakeups

/-!
# The threads finish what they have accepted

`Server.due` is a bound on the steps that the threads have still to take before all of them wait and
every request is closed, if no connection is accepted and no sweep is begun. A worker's stay in
`app_code` is one step, and so is the message to a client that waited too long: both are taken to
return.

* `Step.due`: every step of a thread takes one off, except that a new connection adds ten, and a sweep
  or a `sem_wait` that comes back early one (`Action.adds`). So a run has no more steps than that
  (`work_run`).
* `exists_own_step`: while something is left, some thread can take such a step.
* `reach_finishes`: from every state that the threads reach they can close every request.
-/

namespace RedisImpl

open Ledger

def Main.due : Main → Nat
  | .idle => 0
  | .posting => 3

def AppWorker.due : AppWorker → Nat
  | .waiting => 0
  | .passed => 1
  | .holding _ => 2
  | .serving _ => 1

def ReqQueueMgr.due : ReqQueueMgr → Nat
  | .asleep => 0
  | .sweeping _ => 1
  | .posting _ => 4

def ExcdTmQMgr.due : ExcdTmQMgr → Nat
  | .waiting => 0
  | .passed => 1
  | .holding _ => 2
  | .sent _ => 1

namespace Action

variable {W : Type}

/-- What an action adds to the work of the threads. -/
def adds : Action W → Nat
  | accept _ _ => 10
  | sweep _ => 1
  | workerEarly _ => 1
  | excdEarly => 1
  | _ => 0

/-- The action is one of those that get the work done. -/
def isWork (a : Action W) : Bool := a.adds = 0

end Action

namespace Server

variable {W : Type} [DecidableEq W] [Fintype W] {r : Rounding} {maxQueueTime : Int} {s t : Server W}

/-- The steps that are due: seven for a request in the request queue, three for one that was too late,
and two for a post that nobody has waited for. -/
def due (s : Server W) : Nat :=
  7 * s.reqQ.length + 3 * s.excdTmQ.length + 2 * s.reqQSem + 2 * s.excdTmSem + s.main.due +
    ∑ w, (s.worker w).due + s.reqQueueMgr.due + s.excdTmQMgr.due

/-- How the steps of the workers change with the state of one. -/
theorem sum_setWorker (s : Server W) (w : W) (x : AppWorker) :
    ∑ v, ((s.setWorker w x).worker v).due + (s.worker w).due = ∑ v, (s.worker v).due + x.due :=
  sum_update AppWorker.due s.worker w x

/-- The steps of a worker. -/
theorem due_setWorker {w : W} {x : AppWorker} {q : List Request} {sem n k : Nat} {handed served : List Nat}
    (h : n + (7 * q.length + 2 * sem + x.due) ≤
      k + (7 * s.reqQ.length + 2 * s.reqQSem + (s.worker w).due)) :
    n + ({ s with reqQ := q, reqQSem := sem, handed := handed, served := served }.setWorker w x).due ≤
      s.due + k := by
  have hsum := sum_setWorker { s with reqQ := q, reqQSem := sem, handed := handed, served := served }
    w x
  simp only [due, setWorker] at hsum ⊢
  omega

theorem Step.due {a : Action W} (h : Step r maxQueueTime s a t) :
    a.isWork.toNat + t.due ≤ s.due + a.adds := by
  cases h with
  | accept fd ts hm hu =>
    -- seven for the request and three for its post
    show 0 + Server.due _ ≤ s.due + 10
    simp only [Server.due, length_enqueue, hm, Main.due]
    omega
  | acceptPost hm =>
    show 1 + Server.due _ ≤ s.due + 0
    simp only [Server.due, hm, Main.due]
    omega
  | workerWait w hw hs =>
    -- a post is worth two, and a worker that passed has one step to take
    apply due_setWorker
    show 1 + (7 * s.reqQ.length + 2 * (s.reqQSem - 1) + 1) ≤ 0 + _
    simp only [hw, AppWorker.due]
    omega
  | workerEarly w hw =>
    apply due_setWorker
    show 0 + (7 * s.reqQ.length + 2 * s.reqQSem + 1) ≤ 1 + _
    simp only [hw, AppWorker.due]
    omega
  | workerNone w hw hu hq =>
    apply due_setWorker
    show 1 + (7 * s.reqQ.length + 2 * s.reqQSem + 0) ≤ 0 + _
    simp only [hw, AppWorker.due]
    omega
  | workerTake w rq q hw hu hq =>
    apply due_setWorker
    show 1 + (7 * q.length + 2 * s.reqQSem + 2) ≤ 0 + _
    simp only [hw, hq, AppWorker.due, List.length_cons]
    omega
  | workerServe w rq hw =>
    apply due_setWorker
    show 1 + (7 * s.reqQ.length + 2 * s.reqQSem + 1) ≤ 0 + _
    simp only [hw, AppWorker.due]
    omega
  | workerClose w rq hw =>
    apply due_setWorker
    show 1 + (7 * s.reqQ.length + 2 * s.reqQSem + 0) ≤ 0 + _
    simp only [hw, AppWorker.due]
    omega
  | sweep currTm hm =>
    show 0 + Server.due _ ≤ s.due + 1
    simp only [Server.due, hm, ReqQueueMgr.due]
    omega
  | sweepEnd currTm hm =>
    show 1 + Server.due _ ≤ s.due + 0
    simp only [Server.due, hm, ReqQueueMgr.due]
    omega
  | sweepMove currTm rq q hm hq ht =>
    -- of the seven for the request, three go with it and three are for the post of the sweep
    show 1 + Server.due _ ≤ s.due + 0
    simp only [Server.due, hm, hq, length_enqueue, List.length_cons, ReqQueueMgr.due]
    omega
  | sweepPost currTm hm =>
    show 1 + Server.due _ ≤ s.due + 0
    simp only [Server.due, hm, ReqQueueMgr.due]
    omega
  | excdWait hm hs =>
    show 1 + Server.due _ ≤ s.due + 0
    simp only [Server.due, hm, ExcdTmQMgr.due]
    omega
  | excdEarly hm =>
    show 0 + Server.due _ ≤ s.due + 1
    simp only [Server.due, hm, ExcdTmQMgr.due]
    omega
  | excdNone hm hq =>
    show 1 + Server.due _ ≤ s.due + 0
    simp only [Server.due, hm, ExcdTmQMgr.due]
    omega
  | excdTake rq q hm hq =>
    show 1 + Server.due _ ≤ s.due + 0
    simp only [Server.due, hm, hq, List.length_cons, ExcdTmQMgr.due]
    omega
  | excdSend rq hm =>
    show 1 + Server.due _ ≤ s.due + 0
    simp only [Server.due, hm, ExcdTmQMgr.due]
    omega
  | excdClose rq hm =>
    show 1 + Server.due _ ≤ s.due + 0
    simp only [Server.due, hm, ExcdTmQMgr.due]
    omega

omit [Fintype W] in
/-- A step that gets the work done accepts nothing. -/
theorem Step.accepted_eq {a : Action W} (h : Step r maxQueueTime s a t) (ha : a.isWork = true) :
    t.accepted = s.accepted := by
  cases h with
  | accept => cases ha
  | _ => rfl

/-- In a run, the steps that get the work done are paid for by what was due and what is added. -/
theorem work_run {as : List (Action W)} (h : s.run r maxQueueTime as = some t) :
    as.countP Action.isWork + t.due ≤ s.due + (as.map Action.adds).sum := by
  induction as generalizing s with
  | nil =>
    cases h
    simp
  | cons a as ih =>
    obtain ⟨u, hu, h⟩ := Option.bind_eq_some_iff.mp h
    have hstep := (step_cases hu).due
    have hrest := ih h
    rw [List.countP_cons, List.map_cons, List.sum_cons]
    cases hw : a.isWork with
    | true =>
      rw [hw, Bool.toNat_true] at hstep
      rw [if_pos rfl]
      omega
    | false =>
      rw [if_neg Bool.false_ne_true]
      omega

/-- All threads wait, and no request is in a queue. -/
structure Finished (s : Server W) : Prop where
  main : s.main = .idle
  worker : ∀ w, s.worker w = .waiting
  reqQueueMgr : s.reqQueueMgr = .asleep
  excdTmQMgr : s.excdTmQMgr = .waiting
  reqQ : s.reqQ = []
  excdTmQ : s.excdTmQ = []

/-- While the threads have not finished, one of them can take a step that gets the work done. -/
theorem exists_own_step [Nonempty W] (r : Rounding) (maxQueueTime : Int) (hs : s.Served)
    (hf : ¬ s.Finished) : ∃ a, a.isWork = true ∧ (s.step r maxQueueTime a).isSome = true := by
  -- a thread that is past its wait can go on; where all wait, a semaphore is positive
  cases hm : s.main with
  | posting => exact ⟨.acceptPost, rfl, by simp only [step, if_pos hm, Option.isSome_some]⟩
  | idle =>
    cases hr : s.reqQueueMgr with
    | sweeping currTm => exact ⟨.sweepStep, rfl, by simp only [step, hr, Option.isSome_some]⟩
    | posting currTm => exact ⟨.sweepPost, rfl, by simp only [step, hr, Option.isSome_some]⟩
    | asleep =>
      cases he : s.excdTmQMgr with
      | passed =>
        refine ⟨.excdDequeue, rfl, ?_⟩
        simp only [step, if_pos he]
        cases s.excdTmQ <;> rfl
      | holding rq => exact ⟨.excdSend, rfl, by simp only [step, he, Option.isSome_some]⟩
      | sent rq => exact ⟨.excdClose, rfl, by simp only [step, he, Option.isSome_some]⟩
      | waiting =>
        by_cases hw : ∀ w, s.worker w = .waiting
        · by_cases hq : s.reqQ = []
          · -- only the queue of the timed-out requests is left, and nobody is about to post for it
            have hx : s.excdTmQ ≠ [] := fun hx => hf ⟨hm, hw, hr, he, hq, hx⟩
            have hsem : 0 < s.excdTmSem := by
              by_contra hz
              obtain ⟨currTm, hp⟩ := hs.posting_excdTmQ hx (by omega) (by simp [he])
              rw [hr] at hp
              cases hp
            exact ⟨.excdWait, rfl, by simp only [step, if_pos (And.intro he hsem), Option.isSome_some]⟩
          · -- any worker can pass `req_q_sem`
            obtain ⟨w⟩ := ‹Nonempty W›
            have hsem : 0 < s.reqQSem := by
              by_contra hz
              have hp := hs.posting hq (by omega) (by simp [hw])
              rw [hm] at hp
              cases hp
            exact ⟨.workerWait w, rfl,
              by simp only [step, if_pos (And.intro (hw w) hsem), Option.isSome_some]⟩
        · obtain ⟨w, hw⟩ := not_forall.mp hw
          cases hx : s.worker w with
          | waiting => exact absurd hx hw
          | passed =>
            refine ⟨.workerDequeue w, rfl, ?_⟩
            -- the mutex is free, as the manager sleeps
            have hgo : s.worker w = .passed ∧ s.Unlocked := ⟨hx, hr⟩
            simp only [step, if_pos hgo]
            cases s.reqQ <;> rfl
          | holding rq => exact ⟨.workerServe w, rfl, by simp only [step, hx, Option.isSome_some]⟩
          | serving rq => exact ⟨.workerClose w, rfl, by simp only [step, hx, Option.isSome_some]⟩

omit [DecidableEq W] in
/-- When the threads have finished, every request is closed. -/
theorem Finished.closed (hf : s.Finished) (hp : s.Placed) {id : Nat} (hid : id < s.accepted) :
    id ∈ s.served ∨ id ∈ s.rejected := by
  obtain ⟨p, hp⟩ := hp.mem_held.mpr hid
  cases p with
  | reqQ =>
    rw [held, hf.reqQ] at hp
    cases hp
  | excdTmQ =>
    rw [held, hf.excdTmQ] at hp
    cases hp
  | worker w =>
    rw [held, hf.worker w] at hp
    cases hp
  | excdTmQMgr =>
    rw [held, hf.excdTmQMgr] at hp
    cases hp
  | closed => exact List.mem_append.mp hp

end Server

open Server

variable {W : Type} [DecidableEq W] [Fintype W] {r : Rounding} {maxQueueTime : Int} {s : Server W}

/-- A step that gets the work done. -/
def Working (a : Action W) (_ : Server W) : Prop := a.isWork = true

omit [Fintype W] in
theorem accepted_run {n : Nat} {t : Server W} (h : (serverSys W r maxQueueTime).Run Working n s t) :
    t.accepted = s.accepted := by
  induction h with
  | done s => rfl
  | step a ha hst _ ih => rw [ih, (step_cases hst).accepted_eq ha]

/-- From every state that the threads reach, steps that get the work done, as many as are due at most,
lead to a state in which all threads wait and every request that was accepted is closed. In any run
from there, however the steps interleave, there are no more of these steps than are due and the other
steps add; and where one stops before all threads wait, another one can be taken. So the threads get
there if each call of `app_code` and of `send` returns. -/
theorem reach_finishes [Nonempty W] (hs : (serverSys W r maxQueueTime).Reach s) :
    (∃ n t, n ≤ s.due ∧ (serverSys W r maxQueueTime).Run Working n s t ∧ t.Finished ∧
      ∀ id < s.accepted, id ∈ t.served ∨ id ∈ t.rejected) ∧
    ∀ as t, s.run r maxQueueTime as = some t →
      as.countP Action.isWork + t.due ≤ s.due + (as.map Action.adds).sum ∧
      (¬ t.Finished → ∃ a, a.isWork = true ∧ (t.step r maxQueueTime a).isSome = true) := by
  constructor
  · have hless : ∀ t : Server W, t.Served → ¬ t.Finished → ∃ a t', Working a t ∧
        t.step r maxQueueTime a = some t' ∧ t'.due < t.due := by
      intro t ht hf
      obtain ⟨a, ha, hsome⟩ := exists_own_step r maxQueueTime ht hf
      obtain ⟨t', hst⟩ := Option.isSome_iff_exists.mp hsome
      have hdue := (step_cases hst).due
      have hadds : a.adds = 0 := of_decide_eq_true ha
      rw [ha, hadds, Bool.toNat_true] at hdue
      exact ⟨a, t', ha, hst, by omega⟩
    obtain ⟨n, t, hn, hrun, hf⟩ :=
      Sys.exists_run_of_measure served_inductive due hless (served_inductive.reach hs)
    refine ⟨n, t, hn, hrun, hf, fun id hid => ?_⟩
    exact hf.closed (placed_inductive.reach (hrun.reach hs)) (accepted_run hrun ▸ hid)
  · intro as t h
    exact ⟨work_run h, exists_own_step r maxQueueTime (served_inductive.reach (reach_run hs h))⟩

/-- Three clients: the first is with a worker, the second was too late, the third is in the queue. -/
def busy : List (Action (Fin 2)) :=
  [.accept 4 ⟨0, 0⟩, .acceptPost, .workerWait 0, .workerDequeue 0, .accept 5 ⟨1, 0⟩, .acceptPost,
    .sweep ⟨3, 0⟩, .sweepStep, .sweepPost, .sweepStep, .accept 6 ⟨3, 0⟩]

theorem busy_isSome : (Server.run .exact 5 .start busy).isSome = true := by
  decide +kernel

theorem busy_finishes :
    ∃ s, Server.run .exact 5 .start busy = some s ∧ s.accepted = 3 ∧ s.served = [] ∧
      ∃ n t, n ≤ s.due ∧ (serverSys (Fin 2) .exact 5).Run Working n s t ∧ t.Finished ∧
        ∀ id < 3, id ∈ t.served ∨ id ∈ t.rejected := by
  have hs := (Option.some_get busy_isSome).symm
  obtain ⟨n, t, hn, hrun, hf, hclosed⟩ := (reach_finishes (Server.reach_run (.init rfl) hs)).1
  have haccepted : ((Server.run .exact 5 .start busy).get busy_isSome).accepted = 3 := by
    decide +kernel
  exact ⟨_, hs, haccepted, by decide +kernel, n, t, hn, hrun, hf, haccepted ▸ hclosed⟩

end RedisImpl
