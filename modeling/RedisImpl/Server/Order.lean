import Mathlib.Data.Fintype.Card
import RedisImpl.Server.Threads

/-!
# The order of the requests

Requests are numbered as they are accepted. `InOrder b s`: the ones in the request queue are `b`,
`b + 1`, and so on up to the last, in this order; the ones that were too late (`Server.late`) go on in
order; every request before `b` has been handed to `app_code`, was too late, or is with a worker that
is about to hand it over.

`reach_inOrder`: all of this in every state that the threads reach. Workers can overtake each other,
between `dequeue` and `app_code`: when a request has been handed over, fewer requests than there are
workers can be older and still on their way.
-/

namespace RedisImpl

/-- The request that `th_excd_tm_q_mgr` has. -/
def ExcdTmQMgr.ids : ExcdTmQMgr → List Nat
  | .holding rq => [rq.id]
  | .sent rq => [rq.id]
  | _ => []

/-- The request whose client it has sent the message, but not closed. -/
def ExcdTmQMgr.sentIds : ExcdTmQMgr → List Nat
  | .sent rq => [rq.id]
  | _ => []

/-- Whether a worker has a request before `id` that it has not handed over. -/
def AppWorker.holdsBefore (id : Nat) : AppWorker → Bool
  | .holding rq => rq.id < id
  | _ => false

namespace Server

variable {W : Type}

/-- The requests that were too late, in the order in which they left the request queue. -/
def late (s : Server W) : List Nat :=
  s.rejected.reverse ++ (s.excdTmQMgr.ids ++ s.excdTmQ.map Request.id)

/-- The request queue begins with the request `b`. -/
structure InOrder (b : Nat) (s : Server W) : Prop where
  queue : s.reqQ.map Request.id = List.range' b s.reqQ.length
  accepted : s.accepted = b + s.reqQ.length
  late_sorted : s.late.Pairwise (· < ·)
  late_lt : ∀ id ∈ s.late, id < b
  timedOut : s.timedOut = s.excdTmQMgr.sentIds ++ s.rejected
  handed_lt : ∀ id ∈ s.handed, id < b
  holding_lt : ∀ w rq, s.worker w = .holding rq → rq.id < b
  /-- Some worker does not hold an older request: the one that handed `id` over. -/
  ahead : ∀ id ∈ s.handed, ∃ w, ∀ rq, s.worker w = .holding rq → id < rq.id
  gone : ∀ id < b, id ∈ s.handed ∨ id ∈ s.late ∨ ∃ w rq, s.worker w = .holding rq ∧ rq.id = id

section Steps

variable {b : Nat} {s t : Server W}

/-- A step that changes nothing of this. -/
theorem InOrder.congr (h : InOrder b s) (hq : t.reqQ = s.reqQ) (ha : t.accepted = s.accepted)
    (hl : t.late = s.late) (ht : t.timedOut = t.excdTmQMgr.sentIds ++ t.rejected)
    (hh : t.handed = s.handed)
    (hw : ∀ w rq, t.worker w = .holding rq ↔ s.worker w = .holding rq) : InOrder b t where
  queue := hq ▸ h.queue
  accepted := by rw [ha, hq, h.accepted]
  late_sorted := hl ▸ h.late_sorted
  late_lt := hl ▸ h.late_lt
  timedOut := ht
  handed_lt := hh ▸ h.handed_lt
  holding_lt w rq hr := h.holding_lt w rq ((hw w rq).mp hr)
  ahead id hid := by
    obtain ⟨w, hw'⟩ := h.ahead id (hh ▸ hid)
    exact ⟨w, fun rq hr => hw' rq ((hw w rq).mp hr)⟩
  gone id hid := by
    rw [hh, hl]
    rcases h.gone id hid with hg | hg | ⟨w, rq, hr, he⟩
    · exact .inl hg
    · exact .inr (.inl hg)
    · exact .inr (.inr ⟨w, rq, (hw w rq).mpr hr, he⟩)

/-- The front of the queue is `b`, and the rest begins with `b + 1`. -/
theorem InOrder.front (h : InOrder b s) {rq : Request} {q : List Request} (hq : s.reqQ = rq :: q) :
    rq.id = b ∧ q.map Request.id = List.range' (b + 1) q.length := by
  have hqueue := h.queue
  rw [hq, List.map_cons, List.length_cons, List.range'_succ] at hqueue
  exact List.cons.inj hqueue

/-- The messages are sent in the order of the requests. -/
theorem InOrder.timedOut_sorted (h : InOrder b s) : s.timedOut.Pairwise (· > ·) := by
  have hsub : s.timedOut.reverse.Sublist s.late := by
    rw [h.timedOut, List.reverse_append, late]
    apply List.Sublist.append_left
    cases s.excdTmQMgr <;> simp [ExcdTmQMgr.sentIds, ExcdTmQMgr.ids]
  exact List.pairwise_reverse.mp (h.late_sorted.sublist hsub)

/-- What has left the request queue is before everything in it. -/
theorem InOrder.lt_of_mem_reqQ (h : InOrder b s) {id : Nat} (hid : id < b) {rq : Request}
    (hrq : rq ∈ s.reqQ) : id < rq.id := by
  have hmem : rq.id ∈ List.range' b s.reqQ.length := h.queue ▸ List.mem_map_of_mem hrq
  have hle := (List.mem_range'_1.mp hmem).1
  omega

/-- Fewer requests than there are workers are overtaken. -/
theorem InOrder.card_holdsBefore_lt [Fintype W] (h : InOrder b s) {id : Nat}
    (hid : id ∈ s.handed) :
    (Finset.univ.filter fun w => (s.worker w).holdsBefore id).card < Fintype.card W := by
  -- the worker of `ahead` holds no older request, so it is not counted
  obtain ⟨w, hw⟩ := h.ahead id hid
  apply Finset.card_lt_univ_of_notMem (x := w)
  rw [Finset.mem_filter]
  rintro ⟨-, hb⟩
  cases hx : s.worker w with
  | holding rq =>
    have hlt := hw rq hx
    rw [hx] at hb
    have hgt : rq.id < id := of_decide_eq_true hb
    omega
  | _ =>
    rw [hx] at hb
    cases hb

/-- The manager of the request queue moves its front. -/
theorem InOrder.move (h : InOrder b s) {m : ReqQueueMgr} {rq : Request} {q : List Request}
    (hq : s.reqQ = rq :: q) :
    InOrder (b + 1) { s with reqQ := q, excdTmQ := enqueue s.excdTmQ rq, reqQueueMgr := m } := by
  obtain ⟨hid, hrest⟩ := h.front hq
  have hlate : late { s with reqQ := q, excdTmQ := enqueue s.excdTmQ rq, reqQueueMgr := m } =
      s.late ++ [b] := by
    simp [late, enqueue, hid]
  -- everything that has left the queue is below `b`, and `b` joins the late ones
  refine ⟨hrest, ?_, ?_, ?_, h.timedOut, ?_, ?_, h.ahead, ?_⟩
  · have hacc := h.accepted
    rw [hq, List.length_cons] at hacc
    show s.accepted = b + 1 + q.length
    omega
  · rw [hlate, List.pairwise_append]
    refine ⟨h.late_sorted, List.pairwise_singleton _ b, ?_⟩
    intro id hl b' hb
    rw [List.mem_singleton.mp hb]
    exact h.late_lt id hl
  · intro id hl
    rw [hlate, List.mem_append, List.mem_singleton] at hl
    rcases hl with hl | rfl
    · exact Nat.lt_succ_of_lt (h.late_lt id hl)
    · exact Nat.lt_succ_self id
  · intro id hh
    exact Nat.lt_succ_of_lt (h.handed_lt id hh)
  · intro v rq' hv
    exact Nat.lt_succ_of_lt (h.holding_lt v rq' hv)
  · intro id hlt
    rw [hlate, List.mem_append, List.mem_singleton]
    rcases Nat.lt_succ_iff_lt_or_eq.mp hlt with hlt | rfl
    · rcases h.gone id hlt with hg | hg | hg
      · exact .inl hg
      · exact .inr (.inl (.inl hg))
      · exact .inr (.inr hg)
    · exact .inr (.inl (.inr rfl))

variable [DecidableEq W]

/-- A worker that holds no request before and after the step. -/
theorem holding_setWorker_iff {w : W} {x : AppWorker} (hx : ∀ rq, x ≠ .holding rq)
    (hw : ∀ rq, s.worker w ≠ .holding rq) (v : W) (rq : Request) :
    (s.setWorker w x).worker v = .holding rq ↔ s.worker v = .holding rq := by
  rw [setWorker_worker]
  by_cases hv : v = w
  · subst hv
    rw [if_pos rfl]
    exact iff_of_false (hx rq) (hw rq)
  · rw [if_neg hv]

/-- A worker takes the front of the request queue. -/
theorem InOrder.take (h : InOrder b s) {w : W} {rq : Request} {q : List Request}
    (hw : s.worker w = .passed) (hq : s.reqQ = rq :: q) :
    InOrder (b + 1) ({ s with reqQ := q }.setWorker w (.holding rq)) := by
  obtain ⟨hid, hrest⟩ := h.front hq
  have hold : ∀ v rq', s.worker v = .holding rq' → v ≠ w := by
    rintro v rq' hv rfl
    rw [hw] at hv
    cases hv
  have hnew : ∀ v rq', ({ s with reqQ := q }.setWorker w (.holding rq)).worker v = .holding rq' →
      rq' = rq ∨ s.worker v = .holding rq' := by
    intro v rq' hv
    rw [setWorker_worker] at hv
    by_cases hvw : v = w
    · rw [if_pos hvw] at hv
      exact .inl (AppWorker.holding.inj hv).symm
    · rw [if_neg hvw] at hv
      exact .inr hv
  refine ⟨hrest, ?_, h.late_sorted, ?_, h.timedOut, ?_, ?_, ?_, ?_⟩
  · have hacc := h.accepted
    rw [hq, List.length_cons] at hacc
    show s.accepted = b + 1 + q.length
    omega
  · intro id hl
    exact Nat.lt_succ_of_lt (h.late_lt id hl)
  · intro id hh
    exact Nat.lt_succ_of_lt (h.handed_lt id hh)
  · intro v rq' hv
    rcases hnew v rq' hv with rfl | hv
    · omega
    · exact Nat.lt_succ_of_lt (h.holding_lt v rq' hv)
  · -- the request that is taken is behind every one that was handed over
    intro id hh
    obtain ⟨v, hv⟩ := h.ahead id hh
    refine ⟨v, fun rq' hr => ?_⟩
    rcases hnew v rq' hr with rfl | hr
    · rw [hid]
      exact h.handed_lt id hh
    · exact hv rq' hr
  · intro id hlt
    rcases Nat.lt_succ_iff_lt_or_eq.mp hlt with hlt | rfl
    · rcases h.gone id hlt with hg | hg | ⟨v, rq', hv, he⟩
      · exact .inl hg
      · exact .inr (.inl hg)
      · refine .inr (.inr ⟨v, rq', ?_, he⟩)
        rw [setWorker_worker, if_neg (hold v rq' hv)]
        exact hv
    · refine .inr (.inr ⟨w, rq, ?_, hid⟩)
      rw [setWorker_worker, if_pos rfl]

/-- A worker hands its request to `app_code`. -/
theorem InOrder.serve (h : InOrder b s) {w : W} {rq : Request} (hw : s.worker w = .holding rq) :
    InOrder b ({ s with handed := rq.id :: s.handed }.setWorker w (.serving rq)) := by
  have hnew : ∀ v rq',
      ({ s with handed := rq.id :: s.handed }.setWorker w (.serving rq)).worker v = .holding rq' →
        v ≠ w ∧ s.worker v = .holding rq' := by
    intro v rq' hv
    rw [setWorker_worker] at hv
    by_cases hvw : v = w
    · rw [if_pos hvw] at hv
      cases hv
    · rw [if_neg hvw] at hv
      exact ⟨hvw, hv⟩
  refine ⟨h.queue, h.accepted, h.late_sorted, h.late_lt, h.timedOut, ?_, ?_, ?_, ?_⟩
  · intro id hh
    rcases List.mem_cons.mp hh with rfl | hh
    · exact h.holding_lt w rq hw
    · exact h.handed_lt id hh
  · intro v rq' hv
    exact h.holding_lt v rq' (hnew v rq' hv).2
  · intro id hh
    rcases List.mem_cons.mp hh with rfl | hh
    · -- the worker that hands a request over holds no other one
      exact ⟨w, fun rq' hr => absurd rfl (hnew w rq' hr).1⟩
    · obtain ⟨v, hv⟩ := h.ahead id hh
      exact ⟨v, fun rq' hr => hv rq' (hnew v rq' hr).2⟩
  · intro id hlt
    rcases h.gone id hlt with hg | hg | ⟨v, rq', hv, he⟩
    · exact .inl (List.mem_cons_of_mem _ hg)
    · exact .inr (.inl hg)
    · by_cases hvw : v = w
      · subst hvw
        rw [hw] at hv
        cases hv
        exact .inl (he ▸ List.mem_cons_self)
      · refine .inr (.inr ⟨v, rq', ?_, he⟩)
        rw [setWorker_worker, if_neg hvw]
        exact hv

theorem Step.inOrder {r : Rounding} {maxQueueTime : Int} {a : Action W}
    (hst : Step r maxQueueTime s a t) (h : InOrder b s) : ∃ b', InOrder b' t := by
  cases hst with
  | accept fd ts hm hu =>
    refine ⟨b, ?_, ?_, h.late_sorted, h.late_lt, h.timedOut, h.handed_lt, h.holding_lt, h.ahead,
      h.gone⟩
    · show (enqueue s.reqQ ⟨s.accepted, fd, ts⟩).map Request.id = _
      rw [length_enqueue, List.range'_1_concat, enqueue, List.map_append, h.queue, h.accepted]
      rfl
    · show s.accepted + 1 = b + (enqueue s.reqQ _).length
      rw [length_enqueue, h.accepted]
      omega
  | acceptPost hm => exact ⟨b, h.congr rfl rfl rfl h.timedOut rfl fun _ _ => Iff.rfl⟩
  | workerWait w hw hs =>
    refine ⟨b, h.congr rfl rfl rfl h.timedOut rfl ?_⟩
    exact holding_setWorker_iff (by simp) (by simp [hw])
  | workerEarly w hw =>
    refine ⟨b, h.congr rfl rfl rfl h.timedOut rfl ?_⟩
    exact holding_setWorker_iff (by simp) (by simp [hw])
  | workerNone w hw hu hq =>
    refine ⟨b, h.congr rfl rfl rfl h.timedOut rfl ?_⟩
    exact holding_setWorker_iff (by simp) (by simp [hw])
  | workerTake w rq q hw hu hq => exact ⟨b + 1, h.take hw hq⟩
  | workerServe w rq hw => exact ⟨b, h.serve hw⟩
  | workerClose w rq hw =>
    refine ⟨b, h.congr rfl rfl rfl h.timedOut rfl ?_⟩
    exact holding_setWorker_iff (by simp) (by simp [hw])
  | sweep currTm hm => exact ⟨b, h.congr rfl rfl rfl h.timedOut rfl fun _ _ => Iff.rfl⟩
  | sweepEnd currTm hm => exact ⟨b, h.congr rfl rfl rfl h.timedOut rfl fun _ _ => Iff.rfl⟩
  | sweepMove currTm rq q hm hq ht => exact ⟨b + 1, h.move hq⟩
  | sweepPost currTm hm => exact ⟨b, h.congr rfl rfl rfl h.timedOut rfl fun _ _ => Iff.rfl⟩
  | excdWait hm hs =>
    refine ⟨b, h.congr rfl rfl ?_ ?_ rfl fun _ _ => Iff.rfl⟩
    · simp [late, hm, ExcdTmQMgr.ids]
    · simpa [hm, ExcdTmQMgr.sentIds] using h.timedOut
  | excdEarly hm =>
    refine ⟨b, h.congr rfl rfl ?_ ?_ rfl fun _ _ => Iff.rfl⟩
    · simp [late, hm, ExcdTmQMgr.ids]
    · simpa [hm, ExcdTmQMgr.sentIds] using h.timedOut
  | excdNone hm hq =>
    refine ⟨b, h.congr rfl rfl ?_ ?_ rfl fun _ _ => Iff.rfl⟩
    · simp [late, hm, ExcdTmQMgr.ids]
    · simpa [hm, ExcdTmQMgr.sentIds] using h.timedOut
  | excdTake rq q hm hq =>
    -- from the front of the queue to the manager, which comes before the queue in `late`
    refine ⟨b, h.congr rfl rfl ?_ ?_ rfl fun _ _ => Iff.rfl⟩
    · simp [late, hm, hq, ExcdTmQMgr.ids]
    · simpa [hm, ExcdTmQMgr.sentIds] using h.timedOut
  | excdSend rq hm =>
    refine ⟨b, h.congr rfl rfl ?_ ?_ rfl fun _ _ => Iff.rfl⟩
    · simp [late, hm, ExcdTmQMgr.ids]
    · simpa [hm, ExcdTmQMgr.sentIds] using h.timedOut
  | excdClose rq hm =>
    refine ⟨b, h.congr rfl rfl ?_ ?_ rfl fun _ _ => Iff.rfl⟩
    · simp [late, hm, ExcdTmQMgr.ids]
    · simpa [hm, ExcdTmQMgr.sentIds] using h.timedOut

end Steps

end Server

open Server

variable {W : Type} [DecidableEq W] {r : Rounding} {maxQueueTime : Int}

theorem inOrder_inductive : (serverSys W r maxQueueTime).Inductive fun s => ∃ b, s.InOrder b where
  init s hs := by
    subst hs
    exact ⟨0, rfl, rfl, List.Pairwise.nil, nofun, rfl, nofun, nofun, nofun, nofun⟩
  step a s s' hs h := by
    obtain ⟨b, hb⟩ := hs
    exact (step_cases h).inOrder hb

/-- In every state that the threads reach, however their steps interleave: the request queue has the
last requests that were accepted, in order; those that were too late leave it, get their message and
are closed in order; whatever has been handed to `app_code` or was too late is before all of the
queue. Where a request has been handed over, an earlier one has been too, was too late, or is with a
worker that is about to hand it over, and that is so for fewer requests than there are workers. -/
theorem reach_inOrder [Fintype W] {s : Server W} (hs : (serverSys W r maxQueueTime).Reach s) :
    s.reqQ.map Request.id = List.range' (s.accepted - s.reqQ.length) s.reqQ.length ∧
      s.late.Pairwise (· < ·) ∧ s.timedOut.Pairwise (· > ·) ∧
      (∀ id ∈ s.handed ++ s.late, ∀ rq ∈ s.reqQ, id < rq.id) ∧
      ∀ id ∈ s.handed,
        (∀ old < id, old ∈ s.handed ∨ old ∈ s.late ∨
          ∃ w rq, s.worker w = .holding rq ∧ rq.id = old) ∧
        (Finset.univ.filter fun w => (s.worker w).holdsBefore id).card < Fintype.card W := by
  obtain ⟨b, h⟩ := inOrder_inductive.reach hs
  have hb : s.accepted - s.reqQ.length = b := by
    rw [h.accepted]
    omega
  refine ⟨hb ▸ h.queue, h.late_sorted, h.timedOut_sorted, ?_, fun id hid => ⟨?_, ?_⟩⟩
  · intro id hid rq hrq
    rcases List.mem_append.mp hid with hid | hid
    · exact h.lt_of_mem_reqQ (h.handed_lt id hid) hrq
    · exact h.lt_of_mem_reqQ (h.late_lt id hid) hrq
  · intro old hold
    exact h.gone old (hold.trans (h.handed_lt id hid))
  · exact h.card_holdsBefore_lt hid

/-- Two workers take two requests, and the second one is handed over first. -/
def overtaken : List (Action (Fin 2)) :=
  [.accept 4 ⟨0, 0⟩, .acceptPost, .accept 5 ⟨0, 1⟩, .acceptPost, .workerWait 0, .workerWait 1,
    .workerDequeue 0, .workerDequeue 1, .workerServe 1, .accept 6 ⟨1, 0⟩]

theorem overtaken_isSome : (Server.run .exact 5 .start overtaken).isSome = true := by
  decide +kernel

theorem overtaken_inOrder :
    ∃ s, Server.run .exact 5 .start overtaken = some s ∧ s.handed = [1] ∧
      s.reqQ.map Request.id = [2] ∧
      (0 ∈ s.handed ∨ 0 ∈ s.late ∨ ∃ w rq, s.worker w = .holding rq ∧ rq.id = 0) ∧
      (Finset.univ.filter fun w => (s.worker w).holdsBefore 1).card < 2 := by
  have hs := (Option.some_get overtaken_isSome).symm
  obtain ⟨hq, -, -, -, hhanded⟩ := reach_inOrder (Server.reach_run (.init rfl) hs)
  have h1 := hhanded 1 (by decide +kernel)
  refine ⟨_, hs, by decide +kernel, hq.trans (by decide +kernel), h1.1 0 (by decide), h1.2⟩

end RedisImpl
