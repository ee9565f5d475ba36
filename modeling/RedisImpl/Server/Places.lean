import RedisImpl.Lib.Ledger
import RedisImpl.Server.Threads
import Mathlib.Data.Fintype.Sum
import Mathlib.Tactic.DeriveFintype

/-!
# Every accepted request is in exactly one place

Two ledgers of the requests' ids over the same places:

* `held`: all requests. An accepted request enters at the request queue and then only moves, so
  the total is always the ids handed out so far (`Placed.held`).
* `begun`: the part of them whose client already got something, a run of `app_code` or the timeout
  message. A request enters there when that starts and then only moves (`Placed.begun`).

The second is part of the first (`begun_le`), so no request is in `handed` or `timedOut` twice, or
in both. What the semaphores say plays no role: the result is about every run, early returns of
`sem_wait` included.
-/

namespace RedisImpl

open Ledger

/-- Where a request can be. -/
inductive Place (W : Type) where
  | reqQ
  | excdTmQ
  | worker (w : W)
  | excdTmQMgr
  | closed
  deriving DecidableEq, Fintype

/-- The requests of a queue. -/
def ids (q : List Request) : Multiset Nat := (q : Multiset Request).map Request.id

@[simp] theorem ids_nil : ids [] = 0 := rfl

@[simp] theorem ids_cons (x : Request) (q : List Request) : ids (x :: q) = x.id ::ₘ ids q := rfl

@[simp] theorem ids_enqueue (q : List Request) (x : Request) :
    ids (enqueue q x) = x.id ::ₘ ids q := by
  rw [ids, coe_enqueue, Multiset.map_cons]
  rfl

/-- The request that a worker has. -/
def AppWorker.held : AppWorker → Multiset Nat
  | .holding rq | .serving rq => {rq.id}
  | _ => 0

/-- The request that it has handed to `app_code`. -/
def AppWorker.begun : AppWorker → Multiset Nat
  | .serving rq => {rq.id}
  | _ => 0

/-- The request that the manager of the timed-out requests has. -/
def ExcdTmQMgr.held : ExcdTmQMgr → Multiset Nat
  | .holding rq | .sent rq => {rq.id}
  | _ => 0

/-- The request whose client it has sent the timeout message. -/
def ExcdTmQMgr.begun : ExcdTmQMgr → Multiset Nat
  | .sent rq => {rq.id}
  | _ => 0

theorem AppWorker.begun_le (x : AppWorker) : x.begun ≤ x.held := by
  cases x with
  | serving rq => exact le_refl _
  | _ => exact Multiset.zero_le _

theorem ExcdTmQMgr.begun_le (x : ExcdTmQMgr) : x.begun ≤ x.held := by
  cases x with
  | sent rq => exact le_refl _
  | _ => exact Multiset.zero_le _

namespace Server

variable {W : Type}

/-- Which requests are where. -/
def held (s : Server W) : Place W → Multiset Nat
  | .reqQ => ids s.reqQ
  | .excdTmQ => ids s.excdTmQ
  | .worker w => (s.worker w).held
  | .excdTmQMgr => s.excdTmQMgr.held
  | .closed => ↑(s.served ++ s.rejected)

/-- Those whose clients got something. -/
def begun (s : Server W) : Place W → Multiset Nat
  | .reqQ => 0
  | .excdTmQ => 0
  | .worker w => (s.worker w).begun
  | .excdTmQMgr => s.excdTmQMgr.begun
  | .closed => ↑(s.served ++ s.rejected)

theorem begun_le (s : Server W) (p : Place W) : s.begun p ≤ s.held p := by
  cases p with
  | reqQ => exact Multiset.zero_le _
  | excdTmQ => exact Multiset.zero_le _
  | worker w => exact (s.worker w).begun_le
  | excdTmQMgr => exact s.excdTmQMgr.begun_le
  | closed => exact le_refl _

section Steps

variable {s s' : Server W}

/-- Two states that differ only in what the ledger does not read. -/
theorem held_congr (hr : s'.reqQ = s.reqQ) (he : s'.excdTmQ = s.excdTmQ)
    (hw : ∀ w, (s'.worker w).held = (s.worker w).held)
    (hm : s'.excdTmQMgr.held = s.excdTmQMgr.held) (hs : s'.served = s.served)
    (hj : s'.rejected = s.rejected) : s'.held = s.held := by
  funext p
  cases p with
  | reqQ => simp only [held, hr]
  | excdTmQ => simp only [held, he]
  | worker w => exact hw w
  | excdTmQMgr => exact hm
  | closed => simp only [held, hs, hj]

theorem begun_congr (hw : ∀ w, (s'.worker w).begun = (s.worker w).begun)
    (hm : s'.excdTmQMgr.begun = s.excdTmQMgr.begun) (hs : s'.served = s.served)
    (hj : s'.rejected = s.rejected) : s'.begun = s.begun := by
  funext p
  cases p with
  | reqQ => rfl
  | excdTmQ => rfl
  | worker w => exact hw w
  | excdTmQMgr => exact hm
  | closed => simp only [begun, hs, hj]

variable [DecidableEq W]

/-- A worker that changes state with the same request. -/
theorem held_setWorker_same {w : W} {x : AppWorker} (h : x.held = (s.worker w).held) :
    (s.setWorker w x).held = s.held := by
  refine held_congr rfl rfl (fun v => ?_) rfl rfl rfl
  rw [setWorker_worker]
  split
  · rename_i hv
    rw [hv, h]
  · rfl

theorem begun_setWorker_same {w : W} {x : AppWorker} (h : x.begun = (s.worker w).begun) :
    (s.setWorker w x).begun = s.begun := by
  refine begun_congr (fun v => ?_) rfl rfl rfl
  rw [setWorker_worker]
  split
  · rename_i hv
    rw [hv, h]
  · rfl

end Steps

section Totals

variable [DecidableEq W] [Fintype W] {s s' : Server W} {r : Rounding} {maxQueueTime : Int}

/-- A new connection enters the ledger of all requests; every other step keeps the total. -/
theorem Step.total_held {a : Action W} (h : Step r maxQueueTime s a s')
    (hs : total s.held = Multiset.range s.accepted) :
    total s'.held = Multiset.range s'.accepted := by
  cases h with
  | accept fd ts hm hu =>
    have he : Enters s.held (held { s with
        reqQ := enqueue s.reqQ ⟨s.accepted, fd, ts⟩, main := .posting,
        accepted := s.accepted + 1 }) s.accepted .reqQ := by
      refine ⟨by simp [held], ?_⟩
      intro p hp
      cases p <;> simp_all [held]
    rw [he.total, hs, Multiset.range_succ]
  | acceptPost hm => exact hs
  | workerWait w hw hp =>
    rw [held_setWorker_same (by simp [hw, AppWorker.held])]
    exact hs
  | workerEarly w hw =>
    rw [held_setWorker_same (by simp [hw, AppWorker.held])]
    exact hs
  | workerNone w hw hu hq =>
    rw [held_setWorker_same (by simp [hw, AppWorker.held])]
    exact hs
  | workerTake w rq q hw hu hq =>
    -- the steps that move a request from one place to another leave the other places alone
    refine Eq.trans (Moves.total (t := rq.id) (p := .reqQ) (q := .worker w) ⟨?_, ?_, ?_, ?_⟩) hs
    · simp
    · simp [held, hq]
    · simp [held, hw, AppWorker.held]
    · intro p hp hpw
      cases p <;> simp_all [held]
  | workerServe w rq hw =>
    rw [held_setWorker_same (by simp [hw, AppWorker.held])]
    exact hs
  | workerClose w rq hw =>
    refine Eq.trans (Moves.total (t := rq.id) (p := .worker w) (q := .closed) ⟨?_, ?_, ?_, ?_⟩) hs
    · simp
    · simp [held, hw, AppWorker.held]
    · simp [held]
    · intro p hpw hp
      cases p <;> simp_all [held]
  | sweep currTm hm => exact hs
  | sweepEnd currTm hm => exact hs
  | sweepMove currTm rq q hm hq ht =>
    refine Eq.trans (Moves.total (t := rq.id) (p := .reqQ) (q := .excdTmQ) ⟨?_, ?_, ?_, ?_⟩) hs
    · simp
    · simp [held, hq]
    · simp [held]
    · intro p hp hpe
      cases p <;> simp_all [held]
  | sweepPost currTm hm => exact hs
  | excdWait hm hp =>
    -- the manager holds no request before and after `sem_wait`
    refine Eq.trans (b := total s.held) (congrArg total (held_congr rfl rfl (fun _ => rfl) ?_ rfl rfl)) hs
    rw [hm]
    rfl
  | excdEarly hm =>
    refine Eq.trans (b := total s.held) (congrArg total (held_congr rfl rfl (fun _ => rfl) ?_ rfl rfl)) hs
    rw [hm]
    rfl
  | excdNone hm hq =>
    refine Eq.trans (b := total s.held) (congrArg total (held_congr rfl rfl (fun _ => rfl) ?_ rfl rfl)) hs
    rw [hm]
    rfl
  | excdTake rq q hm hq =>
    refine Eq.trans (Moves.total (t := rq.id) (p := .excdTmQ) (q := .excdTmQMgr)
      ⟨?_, ?_, ?_, ?_⟩) hs
    · simp
    · simp [held, hq]
    · simp [held, hm, ExcdTmQMgr.held]
    · intro p hp hpm
      cases p <;> simp_all [held]
  | excdSend rq hm =>
    refine Eq.trans (b := total s.held) (congrArg total (held_congr rfl rfl (fun _ => rfl) ?_ rfl rfl)) hs
    rw [hm]
    rfl
  | excdClose rq hm =>
    refine Eq.trans (Moves.total (t := rq.id) (p := .excdTmQMgr) (q := .closed)
      ⟨?_, ?_, ?_, ?_⟩) hs
    · simp
    · simp [held, hm, ExcdTmQMgr.held]
    · -- `closed` is the served requests and then the rejected ones
      exact Multiset.coe_eq_coe.mpr List.perm_middle
    · intro p hpm hp
      cases p <;> simp_all [held]

/-- A request that is handed to `app_code` or sent the timeout message enters the ledger of those;
every other step keeps the total. -/
theorem Step.total_begun {a : Action W} (h : Step r maxQueueTime s a s')
    (hs : total s.begun = ↑(s.handed ++ s.timedOut)) :
    total s'.begun = ↑(s'.handed ++ s'.timedOut) := by
  cases h with
  | accept fd ts hm hu => exact hs
  | acceptPost hm => exact hs
  | workerWait w hw hp =>
    rw [begun_setWorker_same (by simp [hw, AppWorker.begun])]
    exact hs
  | workerEarly w hw =>
    rw [begun_setWorker_same (by simp [hw, AppWorker.begun])]
    exact hs
  | workerNone w hw hu hq =>
    rw [begun_setWorker_same (by simp [hw, AppWorker.begun])]
    exact hs
  | workerTake w rq q hw hu hq =>
    rw [begun_setWorker_same (by simp [hw, AppWorker.begun])]
    exact hs
  | workerServe w rq hw =>
    -- the worker held it before, but its client had got nothing
    have he : Enters s.begun
        ({ s with handed := rq.id :: s.handed }.setWorker w (.serving rq)).begun rq.id
        (.worker w) := by
      refine ⟨by simp [begun, hw, AppWorker.begun], ?_⟩
      intro p hp
      cases p <;> simp_all [begun]
    rw [he.total, hs]
    rfl
  | workerClose w rq hw =>
    refine Eq.trans (Moves.total (t := rq.id) (p := .worker w) (q := .closed) ⟨?_, ?_, ?_, ?_⟩) hs
    · simp
    · simp [begun, hw, AppWorker.begun]
    · simp [begun]
    · intro p hpw hp
      cases p <;> simp_all [begun]
  | sweep currTm hm => exact hs
  | sweepEnd currTm hm => exact hs
  | sweepMove currTm rq q hm hq ht => exact hs  -- no client is told of the sweep
  | sweepPost currTm hm => exact hs
  | excdWait hm hp =>
    refine Eq.trans (b := total s.begun) (congrArg total (begun_congr (fun _ => rfl) ?_ rfl rfl)) hs
    rw [hm]
    rfl
  | excdEarly hm =>
    refine Eq.trans (b := total s.begun) (congrArg total (begun_congr (fun _ => rfl) ?_ rfl rfl)) hs
    rw [hm]
    rfl
  | excdNone hm hq =>
    refine Eq.trans (b := total s.begun) (congrArg total (begun_congr (fun _ => rfl) ?_ rfl rfl)) hs
    rw [hm]
    rfl
  | excdTake rq q hm hq =>
    refine Eq.trans (b := total s.begun) (congrArg total (begun_congr (fun _ => rfl) ?_ rfl rfl)) hs
    rw [hm]
    rfl
  | excdSend rq hm =>
    have he : Enters s.begun
        (begun { s with timedOut := rq.id :: s.timedOut, excdTmQMgr := .sent rq }) rq.id
        .excdTmQMgr := by
      refine ⟨by simp [begun, hm, ExcdTmQMgr.begun], ?_⟩
      intro p hp
      cases p <;> simp_all [begun]
    rw [he.total, hs]
    exact Multiset.coe_eq_coe.mpr List.perm_middle.symm
  | excdClose rq hm =>
    refine Eq.trans (Moves.total (t := rq.id) (p := .excdTmQMgr) (q := .closed)
      ⟨?_, ?_, ?_, ?_⟩) hs
    · simp
    · simp [begun, hm, ExcdTmQMgr.begun]
    · exact Multiset.coe_eq_coe.mpr List.perm_middle
    · intro p hpm hp
      cases p <;> simp_all [begun]

end Totals

/-! ## The invariant -/

/-- The requests are the accepted ones, each once; those whose clients got something are the
requests in `handed` and `timedOut`. -/
structure Placed [Fintype W] (s : Server W) : Prop where
  held : total s.held = Multiset.range s.accepted
  begun : total s.begun = ↑(s.handed ++ s.timedOut)

section Placed

variable [Fintype W] {s : Server W}

theorem Placed.total_nodup (h : Placed s) : (total s.held).Nodup :=
  h.held ▸ Multiset.nodup_range _

/-- A request is handed to `app_code` or sent the timeout message at most once, and not both. -/
theorem Placed.nodup_begun (h : Placed s) : (s.handed ++ s.timedOut).Nodup := by
  have hle : total s.begun ≤ total s.held := Finset.sum_le_sum fun p _ => s.begun_le p
  rw [h.begun] at hle
  exact Multiset.coe_nodup.mp (Multiset.nodup_of_le hle h.total_nodup)

/-- An id is in the ledger if it was handed out. -/
theorem Placed.mem_held (h : Placed s) {id : Nat} :
    (∃ p, id ∈ s.held p) ↔ id < s.accepted := by
  rw [← Multiset.mem_range, ← h.held, total, Multiset.mem_sum]
  simp

variable [DecidableEq W]

/-- A place does not have a request twice. -/
theorem Placed.nodup_held (h : Placed s) (p : Place W) : (s.held p).Nodup :=
  Multiset.nodup_of_le (le_total s.held p) h.total_nodup

/-- An accepted request is in exactly one place. -/
theorem Placed.existsUnique (h : Placed s) {id : Nat} (hid : id < s.accepted) :
    ∃! p, id ∈ s.held p := by
  refine existsUnique_place h.total_nodup ?_
  rw [h.held]
  exact Multiset.mem_range.mpr hid

end Placed

end Server

variable {W : Type} [DecidableEq W] [Fintype W] {r : Rounding} {maxQueueTime : Int}

theorem placed_inductive : (serverSys W r maxQueueTime).Inductive Server.Placed where
  init s hs := by
    subst hs
    constructor
    · refine Finset.sum_eq_zero fun p _ => ?_
      cases p <;> rfl
    · refine Finset.sum_eq_zero fun p _ => ?_
      cases p <;> rfl
  step a s s' hs h := by
    have hst := Server.step_cases h
    exact ⟨hst.total_held hs.held, hst.total_begun hs.begun⟩

/-- In every state that the threads reach, however their steps interleave: the requests in the
queues, with the workers, with the manager of the timed-out requests and closed are the accepted
ones, each accepted one is in exactly one of these places, and in none of them twice; no request is
closed twice; none is handed to `app_code` twice, sent the timeout message twice, or both. -/
theorem reach_placed {s : Server W} (hs : (serverSys W r maxQueueTime).Reach s) :
    (∀ id, (∃ p, id ∈ s.held p) ↔ id < s.accepted) ∧
      (∀ id < s.accepted, ∃! p, id ∈ s.held p) ∧ (∀ p, (s.held p).Nodup) ∧
      (s.served ++ s.rejected).Nodup ∧ s.handed.Nodup ∧ s.timedOut.Nodup ∧
      ∀ id ∈ s.handed, id ∉ s.timedOut := by
  have h : s.Placed := placed_inductive.reach hs
  obtain ⟨hh, ht, hd⟩ := List.nodup_append.mp h.nodup_begun
  refine ⟨fun id => h.mem_held, fun id hid => h.existsUnique hid, h.nodup_held, ?_, hh, ht, ?_⟩
  · exact Multiset.coe_nodup.mp (h.nodup_held .closed)
  · intro id hid hid'
    exact hd id hid id hid' rfl

/-- Three clients: one is served, one is sent the timeout message, one is in the queue. -/
def threeClients : List (Action (Fin 2)) :=
  [.accept 4 ⟨0, 0⟩, .acceptPost, .workerWait 1, .workerDequeue 1, .workerServe 1,
    .accept 5 ⟨1, 0⟩, .acceptPost, .sweep ⟨3, 0⟩, .sweepStep, .sweepPost, .sweepStep, .excdWait,
    .excdDequeue, .excdSend, .accept 6 ⟨3, 0⟩]

theorem threeClients_isSome :
    (Server.run .exact 5 .start threeClients).isSome = true := by decide +kernel

theorem threeClients_placed :
    ∃ s, Server.run .exact 5 .start threeClients = some s ∧ s.handed = [0] ∧ s.timedOut = [1] ∧
      2 ∈ s.held .reqQ ∧ (∃! p, 2 ∈ s.held p) ∧ ∀ id ∈ s.handed, id ∉ s.timedOut := by
  have hs := (Option.some_get threeClients_isSome).symm
  have h := reach_placed (Server.reach_run (.init rfl) hs)
  refine ⟨_, hs, by decide +kernel, by decide +kernel, by decide +kernel, ?_, h.2.2.2.2.2.2⟩
  exact h.2.1 2 (by decide +kernel)

end RedisImpl
