import RedisImpl.Lib.Ledger
import RedisImpl.Server.Threads
import Mathlib.Algebra.BigOperators.Group.Finset.Piecewise

/-!
# No request is left behind by a semaphore

`sem_post` follows `enqueue`, and the manager of the request queue takes requests without waiting
on the semaphore: the semaphores and the lengths of the queues drift apart. What stays
(`Served`) is that each request in a queue is paid for: by the semaphore, by a consumer that has
passed it and not yet taken a request, or by the post that is about to follow the `enqueue`. So if
the semaphore is zero and all consumers wait, the producer is about to post (`reach_served`).

Early returns of `sem_wait` only add to what pays, so the bounds hold for them too.
-/

namespace RedisImpl

open Ledger

/-- The worker has passed `sem_wait` and not yet dequeued. -/
def AppWorker.isPassed (x : AppWorker) : Bool := x = .passed

/-- The manager of the timed-out requests has. -/
def ExcdTmQMgr.isPassed (x : ExcdTmQMgr) : Bool := x = .passed

/-- The accept loop has enqueued and not yet posted. -/
def Main.isPosting (x : Main) : Bool := x = .posting

/-- The manager of the request queue has. -/
def ReqQueueMgr.isPosting : ReqQueueMgr → Bool
  | .posting _ => true
  | _ => false

namespace Server

variable {W : Type} [DecidableEq W] [Fintype W] {s s' : Server W} {r : Rounding} {maxQueueTime : Int}

/-- How many workers have passed `sem_wait` and not yet dequeued. -/
def passed (s : Server W) : Nat := count AppWorker.isPassed s.worker

/-- How the number changes with the state of one worker. -/
theorem passed_setWorker (s : Server W) (w : W) (x : AppWorker) :
    (s.setWorker w x).passed + (s.worker w).isPassed.toNat = s.passed + x.isPassed.toNat :=
  count_update _ _ w x

/-- The requests in each queue are paid for. -/
structure Served (s : Server W) : Prop where
  reqQ : s.reqQ.length ≤ s.reqQSem + s.passed + s.main.isPosting.toNat
  excdTmQ : s.excdTmQ.length ≤
    s.excdTmSem + s.excdTmQMgr.isPassed.toNat + s.reqQueueMgr.isPosting.toNat

/-- The steps of a worker, which leave the other queue alone. -/
theorem Served.setWorker (hs : s.Served) {t : Server W} {w : W} {x : AppWorker}
    (ht : t.worker = s.worker) (hm : t.main = s.main) (he : t.excdTmQ = s.excdTmQ)
    (hes : t.excdTmSem = s.excdTmSem) (hem : t.excdTmQMgr = s.excdTmQMgr)
    (hrm : t.reqQueueMgr = s.reqQueueMgr)
    (h : t.reqQ.length + s.reqQSem + (s.worker w).isPassed.toNat ≤
      s.reqQ.length + t.reqQSem + x.isPassed.toNat) : (t.setWorker w x).Served := by
  have hp := passed_setWorker t w x
  have hts : t.passed = s.passed := by rw [passed, ht, passed]
  rw [ht, hts] at hp
  obtain ⟨hr, he'⟩ := hs
  constructor
  · show t.reqQ.length ≤ t.reqQSem + (t.setWorker w x).passed + t.main.isPosting.toNat
    rw [hm]
    omega
  · show t.excdTmQ.length ≤
      t.excdTmSem + t.excdTmQMgr.isPassed.toNat + t.reqQueueMgr.isPosting.toNat
    rw [he, hes, hem, hrm]
    exact he'

theorem Step.served {a : Action W} (h : Step r maxQueueTime s a s') (hs : s.Served) :
    s'.Served := by
  cases h with
  | accept fd ts hm hu =>
    -- one more request, and the accept loop has a `sem_post` to make
    refine ⟨?_, hs.excdTmQ⟩
    have h1 := hs.reqQ
    rw [hm] at h1
    simp only [length_enqueue]
    exact Nat.succ_le_succ h1
  | acceptPost hm =>
    refine ⟨?_, hs.excdTmQ⟩
    have h1 := hs.reqQ
    rw [hm] at h1
    have h2 : s.reqQ.length ≤ s.reqQSem + 1 + s.passed := by
      simp [Main.isPosting] at h1
      omega
    exact h2
  | workerWait w hw hp =>
    refine hs.setWorker rfl rfl rfl rfl rfl rfl ?_
    have h1 : (s.worker w).isPassed.toNat = 0 := by rw [hw]; rfl
    have h2 : AppWorker.passed.isPassed.toNat = 1 := rfl
    rw [h1, h2]
    show s.reqQ.length + s.reqQSem + 0 ≤ s.reqQ.length + (s.reqQSem - 1) + 1
    omega
  | workerEarly w hw =>
    -- one more worker that passed, with the semaphore as it was
    refine hs.setWorker rfl rfl rfl rfl rfl rfl ?_
    simp [hw, AppWorker.isPassed]
  | workerNone w hw hu hq =>
    -- the wake-up is lost, but the queue is empty
    refine ⟨?_, hs.excdTmQ⟩
    show s.reqQ.length ≤ _
    rw [hq]
    exact Nat.zero_le _
  | workerTake w rq q hw hu hq =>
    -- a wake-up and a request, both used up
    refine hs.setWorker rfl rfl rfl rfl rfl rfl ?_
    have h1 : (s.worker w).isPassed.toNat = 1 := by rw [hw]; rfl
    rw [hq, List.length_cons, h1]
    show q.length + s.reqQSem + 1 ≤ q.length + 1 + s.reqQSem + 0
    omega
  | workerServe w rq hw =>
    refine hs.setWorker rfl rfl rfl rfl rfl rfl ?_
    simp [hw, AppWorker.isPassed]
  | workerClose w rq hw =>
    refine hs.setWorker rfl rfl rfl rfl rfl rfl ?_
    simp [hw, AppWorker.isPassed]
  | sweep currTm hm =>
    refine ⟨hs.reqQ, ?_⟩
    have h1 := hs.excdTmQ
    rw [hm] at h1
    exact h1
  | sweepEnd currTm hm =>
    refine ⟨hs.reqQ, ?_⟩
    have h1 := hs.excdTmQ
    rw [hm] at h1
    exact h1
  | sweepMove currTm rq q hm hq ht =>
    -- the request queue gets shorter and keeps its wake-ups; the other one has a post to come
    obtain ⟨h1, h2⟩ := hs
    rw [hq, List.length_cons] at h1
    rw [hm] at h2
    constructor
    · show q.length ≤ s.reqQSem + s.passed + s.main.isPosting.toNat
      omega
    · simp only [length_enqueue]
      exact Nat.succ_le_succ h2
  | sweepPost currTm hm =>
    refine ⟨hs.reqQ, ?_⟩
    have h1 := hs.excdTmQ
    rw [hm] at h1
    show s.excdTmQ.length ≤ s.excdTmSem + 1 + s.excdTmQMgr.isPassed.toNat
    simp only [ReqQueueMgr.isPosting, Bool.toNat_true] at h1
    omega
  | excdWait hm hp =>
    refine ⟨hs.reqQ, ?_⟩
    have h1 := hs.excdTmQ
    rw [hm] at h1
    show s.excdTmQ.length ≤ s.excdTmSem - 1 + 1 + s.reqQueueMgr.isPosting.toNat
    rw [Nat.sub_add_cancel hp]
    exact h1
  | excdEarly hm =>
    refine ⟨hs.reqQ, ?_⟩
    have h1 := hs.excdTmQ
    rw [hm] at h1
    show s.excdTmQ.length ≤ s.excdTmSem + 1 + s.reqQueueMgr.isPosting.toNat
    refine h1.trans ?_
    exact Nat.add_le_add_right (Nat.le_succ _) _
  | excdNone hm hq =>
    refine ⟨hs.reqQ, ?_⟩
    rw [hq]
    exact Nat.zero_le _
  | excdTake rq q hm hq =>
    refine ⟨hs.reqQ, ?_⟩
    have h1 := hs.excdTmQ
    rw [hm, hq] at h1
    show q.length ≤ s.excdTmSem + s.reqQueueMgr.isPosting.toNat
    simp only [List.length_cons, ExcdTmQMgr.isPassed, decide_true, Bool.toNat_true] at h1
    omega
  | excdSend rq hm =>
    refine ⟨hs.reqQ, ?_⟩
    have h1 := hs.excdTmQ
    rw [hm] at h1
    exact h1
  | excdClose rq hm =>
    refine ⟨hs.reqQ, ?_⟩
    have h1 := hs.excdTmQ
    rw [hm] at h1
    exact h1

omit [DecidableEq W]

theorem passed_eq_card (s : Server W) :
    s.passed = (Finset.univ.filter fun w => s.worker w = .passed).card := by
  rw [Finset.card_filter]
  refine Finset.sum_congr rfl fun w _ => ?_
  by_cases hw : s.worker w = .passed <;> simp [AppWorker.isPassed, hw]

/-- If no worker has passed the semaphore and it is zero, the accept loop is about to post. -/
theorem Served.posting (hs : s.Served) (hq : s.reqQ ≠ []) (hsem : s.reqQSem = 0)
    (hw : ∀ w, s.worker w ≠ .passed) : s.main = .posting := by
  have h1 := hs.reqQ
  have h2 : s.passed = 0 := by
    by_contra hne
    obtain ⟨w, hp⟩ := exists_of_count_pos AppWorker.isPassed (Nat.pos_of_ne_zero hne)
    exact hw w (of_decide_eq_true hp)
  have h3 := List.length_pos_iff.mpr hq
  cases hm : s.main with
  | posting => rfl
  | idle =>
    rw [hm, hsem, h2] at h1
    exact absurd h3 (Nat.not_lt.mpr h1)

/-- The same for the timed-out requests and their manager. -/
theorem Served.posting_excdTmQ (hs : s.Served) (hq : s.excdTmQ ≠ []) (hsem : s.excdTmSem = 0)
    (hw : s.excdTmQMgr ≠ .passed) : ∃ currTm, s.reqQueueMgr = .posting currTm := by
  have h1 := hs.excdTmQ
  have h2 : s.excdTmQMgr.isPassed = false := decide_eq_false hw
  have h3 := List.length_pos_iff.mpr hq
  cases hm : s.reqQueueMgr with
  | posting currTm => exact ⟨currTm, rfl⟩
  | _ =>
    rw [hm, hsem, h2] at h1
    exact absurd h3 (Nat.not_lt.mpr h1)

end Server

variable {W : Type} [DecidableEq W] [Fintype W] {r : Rounding} {maxQueueTime : Int}

theorem served_inductive : (serverSys W r maxQueueTime).Inductive Server.Served where
  init s hs := by
    subst hs
    exact ⟨Nat.zero_le _, Nat.zero_le _⟩
  step a s s' hs h := (Server.step_cases h).served hs

/-- In every state that the threads reach, each queue is at most as long as its semaphore, the
consumers that have passed it and the post that is under way allow. So when a queue has a request,
its semaphore is zero and no consumer has passed it, the producer is about to post. -/
theorem reach_served {s : Server W} (hs : (serverSys W r maxQueueTime).Reach s) :
    s.reqQ.length ≤ s.reqQSem + (Finset.univ.filter fun w => s.worker w = .passed).card +
        (if s.main = .posting then 1 else 0) ∧
      s.excdTmQ.length ≤ s.excdTmSem + (if s.excdTmQMgr = .passed then 1 else 0) +
        (if s.reqQueueMgr.isPosting then 1 else 0) ∧
      (s.reqQ ≠ [] → s.reqQSem = 0 → (∀ w, s.worker w ≠ .passed) → s.main = .posting) ∧
      (s.excdTmQ ≠ [] → s.excdTmSem = 0 → s.excdTmQMgr ≠ .passed →
        ∃ currTm, s.reqQueueMgr = .posting currTm) := by
  have h := served_inductive.reach hs
  refine ⟨?_, ?_, h.posting, h.posting_excdTmQ⟩
  · have h1 := h.reqQ
    rw [Server.passed_eq_card] at h1
    simpa [Main.isPosting, Bool.toNat, Bool.cond_decide] using h1
  · have h1 := h.excdTmQ
    simpa [ExcdTmQMgr.isPassed, Bool.toNat, Bool.cond_decide, Bool.cond_eq_ite] using h1

/-- The queue manager took the request after the semaphore was posted for it: a worker passes the
semaphore and finds no request. The second client's request is in the queue before the post. -/
def lateWorker : List (Action (Fin 2)) :=
  [.accept 4 ⟨0, 0⟩, .acceptPost, .sweep ⟨2, 0⟩, .sweepStep, .sweepPost, .sweepStep, .workerWait 0,
    .workerDequeue 0, .accept 5 ⟨2, 0⟩]

theorem lateWorker_isSome :
    (Server.run .exact 5 .start lateWorker).isSome = true := by decide +kernel

theorem lateWorker_served :
    ∃ s, Server.run .exact 5 .start lateWorker = some s ∧ s.reqQ.length = 1 ∧ s.reqQSem = 0 ∧
      s.excdTmQ.length = 1 ∧ s.excdTmSem = 1 ∧ s.main = .posting := by
  have hs := (Option.some_get lateWorker_isSome).symm
  have h := reach_served (Server.reach_run (.init rfl) hs)
  refine ⟨_, hs, by decide +kernel, by decide +kernel, by decide +kernel, by decide +kernel, ?_⟩
  exact h.2.2.1 (by decide +kernel) (by decide +kernel) (by decide +kernel)

end RedisImpl
