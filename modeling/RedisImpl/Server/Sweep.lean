import RedisImpl.Server.Threads
import Mathlib.Tactic.Ring

/-!
# A sweep of the request queue

`th_req_queue_mgr` looks at the front of the queue only, and ends its sweep at the first request
that has not waited too long. `sweep_exact`: if the clock does not run backwards and the arithmetic
on times is exact, a sweep moves the requests that have waited too long, all of them and no others,
whatever the other threads do meanwhile.

* `monotoneSys`: the runs in which a new request is not older than those in the queue. In these the
  queue is in the order of the times (`sorted_inductive`). A clock that does not run backwards gives
  such a run (`reach_monotone`).
* `Moved`: what the steps of a sweep change, and the steps of the other threads meanwhile. One step
  (`Step.moved`), and from it a run (`moved_run`).
-/

namespace RedisImpl

/-- A time in seconds, exactly. -/
def Timespec.seconds (ts : Timespec) : ℚ := ts.tvSec + ts.tvNsec / 1000000000

/-- At `currTm` the request has waited for more than a second, or than `max_queue_time`. -/
def Exceeded (maxQueueTime : Int) (currTm : Timespec) (rq : Request) : Prop :=
  min 1 (maxQueueTime : ℚ) < currTm.seconds - rq.ts.seconds

instance (maxQueueTime : Int) (currTm : Timespec) (rq : Request) :
    Decidable (Exceeded maxQueueTime currTm rq) := inferInstanceAs (Decidable (_ < _))

/-- The differences of the seconds and of the nanoseconds are the difference of the times. -/
theorem seconds_getTimeDiff (a b : Timespec) :
    Rounding.exact.seconds (getTimeDiff a b) = a.seconds - b.seconds := by
  simp only [Rounding.seconds, Rounding.exact, getTimeDiff, Timespec.seconds, Int.cast_sub]
  ring

theorem wasWaitingTimeExceeded_iff {maxQueueTime : Int} {currTm : Timespec} {rq : Request} :
    wasWaitingTimeExceeded .exact (getTimeDiff currTm rq.ts) 1 maxQueueTime = true ↔
      Exceeded maxQueueTime currTm rq := by
  have hmin : (if (1 : ℚ) > maxQueueTime then (maxQueueTime : ℚ) else 1) = min 1 (maxQueueTime : ℚ) := by
    split
    · rename_i h
      exact (min_eq_right h.le).symm
    · rename_i h
      exact (min_eq_left (not_lt.mp h)).symm
  have hflt : ∀ q, Rounding.exact.flt q = q := fun q => rfl
  rw [wasWaitingTimeExceeded, seconds_getTimeDiff]
  simp only [hflt, hmin, decide_eq_true_iff]
  exact Iff.rfl

/-- An older request has waited longer. -/
theorem Exceeded.of_le {maxQueueTime : Int} {currTm : Timespec} {rq rq' : Request}
    (h : Exceeded maxQueueTime currTm rq') (hle : rq.ts.seconds ≤ rq'.ts.seconds) :
    Exceeded maxQueueTime currTm rq := by
  unfold Exceeded at h ⊢
  linarith

/-! ## The order of the queue -/

/-- The requests stand in the order of their times. -/
def Sorted (q : List Request) : Prop := q.Pairwise fun a b => a.ts.seconds ≤ b.ts.seconds

/-- If the front has not waited too long, nobody has. -/
theorem Sorted.not_exceeded {maxQueueTime : Int} {currTm : Timespec} {q : List Request}
    (hq : Sorted q)
    (hfront : ∀ rq ∈ q.head?, ¬ Exceeded maxQueueTime currTm rq) :
    ∀ rq ∈ q, ¬ Exceeded maxQueueTime currTm rq := by
  cases q with
  | nil => simp
  | cons front q =>
    intro rq hrq hex
    have hf := hfront front rfl
    rcases List.mem_cons.mp hrq with rfl | hrq
    · exact hf hex
    · exact hf (hex.of_le (List.rel_of_pairwise_cons hq hrq))

/-- The first requests of a queue have waited too long, the others have not. -/
theorem filter_split {maxQueueTime : Int} {currTm : Timespec} {moved kept : List Request}
    (hm : ∀ rq ∈ moved, Exceeded maxQueueTime currTm rq)
    (hk : ∀ rq ∈ kept, ¬ Exceeded maxQueueTime currTm rq) :
    (moved ++ kept).filter (Exceeded maxQueueTime currTm) = moved ∧
      (moved ++ kept).filter (fun rq => ¬ Exceeded maxQueueTime currTm rq) = kept := by
  rw [List.filter_append, List.filter_append]
  constructor
  · rw [List.filter_eq_self.mpr (by simpa using hm), List.filter_eq_nil_iff.mpr (by simpa using hk),
      List.append_nil]
  · rw [List.filter_eq_nil_iff.mpr (by simpa using hm), List.filter_eq_self.mpr (by simpa using hk),
      List.nil_append]

/-- The clock does not run backwards: a new request is not older than those in the queue. -/
def Action.Later {W : Type} (a : Action W) (s : Server W) : Prop :=
  ∀ fd ts, a = .accept fd ts → ∀ rq ∈ s.reqQ, rq.ts.seconds ≤ ts.seconds

/-- The runs with such a clock, and exact arithmetic. -/
def monotoneSys (W : Type) [DecidableEq W] (maxQueueTime : Int) : Sys (Server W) (Action W) :=
  (serverSys W .exact maxQueueTime).restrict Action.Later

namespace Server

variable {W : Type} {maxQueueTime : Int}

section Order

variable [DecidableEq W]

theorem Step.sorted {r : Rounding} {s s' : Server W} {a : Action W}
    (h : Step r maxQueueTime s a s') (hl : a.Later s) (hs : Sorted s.reqQ) : Sorted s'.reqQ := by
  cases h with
  | accept fd ts hm hu =>
    refine List.pairwise_append.mpr ⟨hs, List.pairwise_singleton _ _, ?_⟩
    intro rq hrq new hnew
    rw [List.mem_singleton.mp hnew]
    exact hl fd ts rfl rq hrq
  | workerTake w rq q hw hu hq =>
    rw [hq] at hs
    exact hs.of_cons
  | sweepMove currTm rq q hm hq ht =>
    rw [hq] at hs
    exact hs.of_cons
  | acceptPost | workerWait | workerEarly | workerNone | workerServe | workerClose | sweep
  | sweepEnd | sweepPost | excdWait | excdEarly | excdNone | excdTake | excdSend | excdClose =>
    exact hs

theorem sorted_inductive : (monotoneSys W maxQueueTime).Inductive fun s => Sorted s.reqQ where
  init s hs := by
    subst hs
    exact List.Pairwise.nil
  step a s s' hs h := (step_cases h.1).sorted h.2 hs

theorem run_append (r : Rounding) (maxQueueTime : Int) (s : Server W) (as bs : List (Action W)) :
    s.run r maxQueueTime (as ++ bs) =
      (s.run r maxQueueTime as).bind fun t => t.run r maxQueueTime bs := by
  induction as generalizing s with
  | nil => rfl
  | cons a as ih =>
    rw [List.cons_append, run, run, Option.bind_assoc]
    exact congrArg _ (funext fun t => ih t)

/-- The clock reading of a new connection. -/
def acceptTime : Action W → Option Timespec
  | .accept _ ts => some ts
  | _ => none

/-- A request in the queue was there before, or has just been accepted. -/
theorem Step.mem_reqQ {r : Rounding} {s s' : Server W} {a : Action W}
    (h : Step r maxQueueTime s a s') {rq : Request} (hrq : rq ∈ s'.reqQ) :
    rq ∈ s.reqQ ∨ acceptTime a = some rq.ts := by
  cases h with
  | accept fd ts hm hu =>
    refine (List.mem_append.mp hrq).imp_right fun hnew => ?_
    rw [List.mem_singleton.mp hnew]
    rfl
  | workerTake w x q hw hu hq =>
    rw [hq]
    exact .inl (List.mem_cons_of_mem _ hrq)
  | sweepMove currTm x q hm hq ht =>
    rw [hq]
    exact .inl (List.mem_cons_of_mem _ hrq)
  | acceptPost | workerWait | workerEarly | workerNone | workerServe | workerClose | sweep
  | sweepEnd | sweepPost | excdWait | excdEarly | excdNone | excdTake | excdSend | excdClose =>
    exact .inl hrq

/-- A run whose readings for new connections do not go backwards. -/
theorem reach_monotone {as : List (Action W)} {s : Server W}
    (h : Server.start.run .exact maxQueueTime as = some s)
    (ht : (as.filterMap acceptTime).Pairwise fun a b => a.seconds ≤ b.seconds) :
    (monotoneSys W maxQueueTime).Reach s ∧ ∀ rq ∈ s.reqQ, rq.ts ∈ as.filterMap acceptTime := by
  induction as using List.reverseRecOn generalizing s with
  | nil =>
    cases h
    exact ⟨.init rfl, by simp [start]⟩
  | append_singleton as a ih =>
    rw [run_append] at h
    obtain ⟨t, hrun, hstep⟩ := Option.bind_eq_some_iff.mp h
    obtain ⟨s', hs', ⟨⟩⟩ := Option.bind_eq_some_iff.mp hstep
    rw [List.filterMap_append] at ht ⊢
    obtain ⟨hpre, -, hle⟩ := List.pairwise_append.mp ht
    obtain ⟨hr, hmem⟩ := ih hrun hpre
    refine ⟨.step a hr ⟨hs', ?_⟩, fun rq hrq => ?_⟩
    · rintro fd ts rfl rq hrq
      exact hle _ (hmem rq hrq) ts (by simp [acceptTime])
    · rcases (step_cases hs').mem_reqQ hrq with hold | hnew
      · exact List.mem_append_left _ (hmem rq hold)
      · exact List.mem_append_right _ (by simp [hnew])

end Order

/-! ## What a sweep changes -/

/-- The manager of the request queue is in a sweep at `currTm`. -/
def Sweeping (currTm : Timespec) (s : Server W) : Prop :=
  s.reqQueueMgr = .sweeping currTm ∨ s.reqQueueMgr = .posting currTm

theorem Sweeping.ne_asleep {currTm : Timespec} {s : Server W} (hs : s.Sweeping currTm) :
    s.reqQueueMgr ≠ .asleep := by
  rcases hs with hs | hs
  · simp [hs]
  · simp [hs]

/-- A sweep has one time. -/
theorem Sweeping.unique {currTm tm : Timespec} {s : Server W} (hs : s.Sweeping currTm)
    (h : s.Sweeping tm) : tm = currTm := by
  rcases hs with hs | hs
  · simpa [Sweeping, hs, eq_comm] using h
  · simpa [Sweeping, hs, eq_comm] using h

/-- The post that is under way. -/
def pending (s : Server W) : Nat :=
  match s.reqQueueMgr with
  | .posting _ => 1
  | _ => 0

/-- The requests that the manager of the timed-out requests takes in a step. -/
def takenBy (s : Server W) : Action W → List Request
  | .excdDequeue => if s.excdTmQMgr = .passed then s.excdTmQ.take 1 else []
  | _ => []

/-- The manager of the timed-out requests passes the semaphore. -/
def waits : Action W → Bool
  | .excdWait => true
  | _ => false

/-- From `s` to `s'` the manager moved the requests `moved` at the time `currTm`. In the meantime
the other manager took the requests `out` and passed the semaphore `n` times. -/
structure Moved (maxQueueTime : Int) (currTm : Timespec) (s s' : Server W)
    (out : List Request) (n : Nat) (moved : List Request) : Prop where
  reqQ : s.reqQ = moved ++ s'.reqQ
  excdTmQ : out ++ s'.excdTmQ = s.excdTmQ ++ moved
  excdTmSem : s'.excdTmSem + s'.pending + n = s.excdTmSem + s.pending + moved.length
  exceeded : ∀ rq ∈ moved, Exceeded maxQueueTime currTm rq

section Moved

variable {currTm : Timespec} {s t u : Server W}

/-- A step of the other threads: the request queue stays as it is. -/
theorem Moved.none {out : List Request} {n : Nat} (hr : t.reqQ = s.reqQ)
    (he : out ++ t.excdTmQ = s.excdTmQ)
    (hsem : t.excdTmSem + t.pending + n = s.excdTmSem + s.pending) :
    Moved maxQueueTime currTm s t out n [] where
  reqQ := hr.symm
  excdTmQ := by rw [he, List.append_nil]
  excdTmSem := hsem
  exceeded := by simp

theorem Moved.trans {out out' moved moved' : List Request} {n n' : Nat}
    (h : Moved maxQueueTime currTm s t out n moved)
    (h' : Moved maxQueueTime currTm t u out' n' moved') :
    Moved maxQueueTime currTm s u (out ++ out') (n + n') (moved ++ moved') where
  reqQ := by rw [h.reqQ, h'.reqQ, List.append_assoc]
  excdTmQ := by rw [List.append_assoc, h'.excdTmQ, ← List.append_assoc, h.excdTmQ, List.append_assoc]
  excdTmSem := by
    have h1 := h.excdTmSem
    have h2 := h'.excdTmSem
    rw [List.length_append]
    omega
  exceeded rq hrq := (List.mem_append.mp hrq).elim (h.exceeded rq) (h'.exceeded rq)

variable [DecidableEq W]

/-- In a sweep, one step of any thread: the mutex keeps the others off the request queue. -/
theorem Step.moved {a : Action W} (h : Step .exact maxQueueTime s a t) (hs : s.Sweeping currTm)
    (ht : t.Sweeping currTm) :
    ∃ moved, Moved maxQueueTime currTm s t (s.takenBy a) (waits a).toNat moved := by
  have hlocked : ¬ s.Unlocked := hs.ne_asleep
  cases h with
  | accept fd ts hm hu => exact absurd hu hlocked
  | workerNone w hw hu hq => exact absurd hu hlocked
  | workerTake w rq q hw hu hq => exact absurd hu hlocked
  | sweep tm hm => exact absurd hm hlocked
  | sweepEnd tm hm => exact absurd rfl ht.ne_asleep
  | sweepMove tm rq q hm hq hex =>
    obtain rfl := hs.unique (.inl hm)
    refine ⟨[rq], hq, rfl, ?_, ?_⟩
    · simp [pending, hm, waits]
    · intro x hx
      rw [List.mem_singleton.mp hx]
      exact wasWaitingTimeExceeded_iff.mp hex
  | sweepPost tm hm => exact ⟨[], .none rfl rfl (by simp [pending, hm, waits])⟩
  | excdWait hm hsem =>
    refine ⟨[], .none rfl rfl ?_⟩
    simp only [pending, waits, Bool.toNat_true]
    omega
  | excdTake rq q hm hq => exact ⟨[], .none rfl (by simp [takenBy, hm, hq]) rfl⟩
  | excdNone hm hq => exact ⟨[], .none rfl (by simp [takenBy, hm, hq]) rfl⟩
  | acceptPost | workerWait | workerEarly | workerServe | workerClose | excdEarly | excdSend
  | excdClose =>
    exact ⟨[], .none rfl rfl rfl⟩

/-- Nobody but the manager of the request queue wakes it up. -/
theorem Step.asleep {a : Action W} (h : Step .exact maxQueueTime s a t)
    (ha : ∀ tm, a ≠ .sweep tm) (hs : s.reqQueueMgr = .asleep) : t.reqQueueMgr = .asleep := by
  cases h with
  | sweep tm hm => exact absurd rfl (ha tm)
  | sweepMove tm rq q hm hq hex =>
    rw [hs] at hm
    cases hm
  | sweepPost tm hm =>
    rw [hs] at hm
    cases hm
  | sweepEnd tm hm => rfl
  | accept | acceptPost | workerWait | workerEarly | workerNone | workerTake | workerServe
  | workerClose | excdWait | excdEarly | excdNone | excdTake | excdSend | excdClose => exact hs

theorem asleep_run {as : List (Action W)} (h : s.run .exact maxQueueTime as = some t)
    (ha : ∀ tm, .sweep tm ∉ as) (hs : s.reqQueueMgr = .asleep) : t.reqQueueMgr = .asleep := by
  induction as generalizing s with
  | nil =>
    cases h
    exact hs
  | cons a as ih =>
    obtain ⟨u, hu, h⟩ := Option.bind_eq_some_iff.mp h
    have ha' : ∀ tm, a ≠ .sweep tm := fun tm heq => ha tm (heq ▸ List.mem_cons_self)
    exact ih h (fun tm hm => ha tm (List.mem_cons_of_mem _ hm)) ((step_cases hu).asleep ha' hs)

/-- The requests that the manager of the timed-out requests takes in a run. -/
def taken (maxQueueTime : Int) (s : Server W) : List (Action W) → List Request
  | [] => []
  | a :: as =>
    match s.step .exact maxQueueTime a with
    | none => []
    | some s' => s.takenBy a ++ s'.taken maxQueueTime as

/-- A step in a sweep goes on with it, unless it ends it. -/
theorem Step.sweeping {a : Action W} (h : Step .exact maxQueueTime s a t)
    (hs : s.Sweeping currTm) : t.Sweeping currTm ∨ t.reqQueueMgr = .asleep := by
  cases h with
  | sweep tm hm => exact absurd hm hs.ne_asleep
  | sweepEnd tm hm => exact .inr rfl
  | sweepMove tm rq q hm hq hex =>
    obtain rfl := hs.unique (.inl hm)
    exact .inl (.inr rfl)
  | sweepPost tm hm =>
    obtain rfl := hs.unique (.inr hm)
    exact .inl (.inl rfl)
  | accept | acceptPost | workerWait | workerEarly | workerNone | workerTake | workerServe
  | workerClose | excdWait | excdEarly | excdNone | excdTake | excdSend | excdClose =>
    exact .inl hs

/-- In a sweep, a run of all the threads. -/
theorem moved_run {as : List (Action W)} (h : s.run .exact maxQueueTime as = some t)
    (ha : ∀ tm, .sweep tm ∉ as) (hs : s.Sweeping currTm) (ht : t.reqQueueMgr ≠ .asleep) :
    t.Sweeping currTm ∧
      ∃ moved, Moved maxQueueTime currTm s t (s.taken maxQueueTime as) (as.countP waits) moved := by
  induction as generalizing s with
  | nil =>
    cases h
    exact ⟨hs, [], .none rfl rfl rfl⟩
  | cons a as ih =>
    obtain ⟨u, hu, h⟩ := Option.bind_eq_some_iff.mp h
    have ha' : ∀ tm, .sweep tm ∉ as := fun tm hm => ha tm (List.mem_cons_of_mem _ hm)
    rcases (step_cases hu).sweeping hs with hsw | hend
    · obtain ⟨moved, hm⟩ := (step_cases hu).moved hs hsw
      obtain ⟨htt, moved', hm'⟩ := ih h ha' hsw
      refine ⟨htt, moved ++ moved', ?_⟩
      rw [taken, hu, List.countP_cons, Nat.add_comm]
      have hn : (if waits a = true then 1 else 0) = (waits a).toNat := by cases waits a <;> rfl
      rw [hn]
      exact hm.trans hm'
    · exact absurd (asleep_run h ha' hend) ht

/-- The step that ends a sweep: the front has not waited too long. -/
theorem sweepStep_ends (h : s.step .exact maxQueueTime .sweepStep = some t)
    (hs : s.Sweeping currTm) (ht : t.reqQueueMgr = .asleep) :
    t = { s with reqQueueMgr := .asleep } ∧ s.pending = 0 ∧
      ∀ rq ∈ s.reqQ.head?, ¬ Exceeded maxQueueTime currTm rq := by
  rcases hs with hs | hs
  · simp only [step, hs, Option.some.injEq, sweepStep] at h
    refine ⟨?_, by rw [pending, hs], ?_⟩
    · split at h
      · exact h.symm
      · split at h
        · exact h.symm
        · rw [← h] at ht
          cases ht
    · intro rq hrq hex
      rw [getFront, hrq] at h
      simp only [wasWaitingTimeExceeded_iff.mpr hex, Bool.not_true, Bool.false_eq_true,
        if_false] at h
      rw [← h] at ht
      cases ht
  · simp [step, hs] at h

end Moved

/-- A sweep at `currTm` from `s` to `s'`: the manager wakes up, and ends the sweep with its last
step. It and the other threads take the steps `during` in between. -/
structure Sweep [DecidableEq W] (maxQueueTime : Int) (currTm : Timespec) (s : Server W)
    (during : List (Action W)) (s' : Server W) : Prop where
  run : s.run .exact maxQueueTime (.sweep currTm :: (during ++ [.sweepStep])) = some s'
  once : ∀ tm, .sweep tm ∉ during
  ends : s'.reqQueueMgr = .asleep

section Sweep

variable [DecidableEq W] {currTm : Timespec} {s t s' : Server W} {as bs during : List (Action W)}

theorem taken_append (h : s.run .exact maxQueueTime as = some t) (bs : List (Action W)) :
    s.taken maxQueueTime (as ++ bs) = s.taken maxQueueTime as ++ t.taken maxQueueTime bs := by
  induction as generalizing s with
  | nil =>
    cases h
    rfl
  | cons a as ih =>
    obtain ⟨u, hu, h⟩ := Option.bind_eq_some_iff.mp h
    rw [List.cons_append, taken, taken, hu]
    simp only [ih h, List.append_assoc]

/-- The states of a sweep: after its first step, and before its last one. -/
theorem Sweep.cases (h : Sweep maxQueueTime currTm s during s') :
    s.reqQueueMgr = .asleep ∧ ∃ t,
      Server.run .exact maxQueueTime { s with reqQueueMgr := .sweeping currTm } during = some t ∧
        t.step .exact maxQueueTime .sweepStep = some s' := by
  obtain ⟨u, hu, hrun⟩ := Option.bind_eq_some_iff.mp h.run
  obtain ⟨hm, ⟨⟩⟩ := Option.ite_none_right_eq_some.mp hu
  rw [run_append] at hrun
  obtain ⟨t, ht, hstep⟩ := Option.bind_eq_some_iff.mp hrun
  obtain ⟨v, hv, ⟨⟩⟩ := Option.bind_eq_some_iff.mp hstep
  exact ⟨hm, t, ht, hv⟩

theorem Sweep.moved (h : Sweep maxQueueTime currTm s during s') (hq : Sorted s.reqQ) :
    (∀ rq ∈ s'.reqQ, ¬ Exceeded maxQueueTime currTm rq) ∧
      ∃ moved, Moved maxQueueTime currTm s s'
        (s.taken maxQueueTime (.sweep currTm :: (during ++ [.sweepStep])))
        (during.countP waits) moved := by
  obtain ⟨hm, t, ht, hend⟩ := h.cases
  have htm : t.reqQueueMgr ≠ .asleep := by
    intro ht
    rw [step, ht] at hend
    cases hend
  obtain ⟨htt, moved, hmv⟩ := moved_run ht h.once (.inl rfl) htm
  obtain ⟨hs', hp, hfront⟩ := sweepStep_ends hend htt h.ends
  have htq : Sorted t.reqQ := by
    have hsq : Sorted (moved ++ t.reqQ) := hmv.reqQ ▸ hq
    exact (List.pairwise_append.mp hsq).2.1
  have htaken : s.taken maxQueueTime (.sweep currTm :: (during ++ [.sweepStep])) =
      taken maxQueueTime { s with reqQueueMgr := .sweeping currTm } during := by
    have hstep : s.step .exact maxQueueTime (.sweep currTm) =
        some { s with reqQueueMgr := .sweeping currTm } := if_pos hm
    rw [taken, hstep]
    simp only [takenBy, List.nil_append]
    rw [taken_append ht, taken, hend]
    simp [takenBy, taken]
  rw [htaken]
  subst hs'
  refine ⟨htq.not_exceeded hfront, moved, hmv.reqQ, hmv.excdTmQ, ?_, hmv.exceeded⟩
  have hsem := hmv.excdTmSem
  have hps : s.pending = 0 := by rw [pending, hm]
  rw [hp] at hsem
  rw [hps]
  exact hsem

theorem step_sweepStep_eq (hs : s.reqQueueMgr = .sweeping currTm) :
    s.step .exact maxQueueTime .sweepStep = some (s.sweepStep .exact maxQueueTime currTm) := by
  rw [step, hs]

/-- The manager alone comes to the end of a sweep. -/
theorem exists_ends (hs : s.reqQueueMgr = .sweeping currTm) :
    ∃ during s', s.run .exact maxQueueTime (during ++ [.sweepStep]) = some s' ∧
      s'.reqQueueMgr = .asleep ∧ ∀ a ∈ during, a = .sweepStep ∨ a = .sweepPost := by
  generalize hq : s.reqQ = q
  induction q generalizing s with
  | nil =>
    refine ⟨[], s.sweepStep .exact maxQueueTime currTm, ?_, ?_, by simp⟩
    · rw [List.nil_append, Server.run, step_sweepStep_eq hs]
      rfl
    · rw [sweepStep, hq, getFront, List.head?_nil]
  | cons rq q ih =>
    by_cases hex : wasWaitingTimeExceeded .exact (getTimeDiff currTm rq.ts) 1 maxQueueTime = true
    · let t : Server W := { s with
        reqQ := q, excdTmQ := enqueue s.excdTmQ rq, excdTmSem := s.excdTmSem + 1,
        reqQueueMgr := .sweeping currTm }
      have hrun : s.run .exact maxQueueTime [.sweepStep, .sweepPost] = some t := by
        rw [Server.run, step_sweepStep_eq hs, sweepStep, hq, getFront_cons]
        simp [hex, Server.run, step, t]
      obtain ⟨during, s', hrun', hend, hown⟩ := @ih t rfl rfl
      refine ⟨.sweepStep :: .sweepPost :: during, s', ?_, hend, ?_⟩
      · have happ := run_append .exact maxQueueTime s [.sweepStep, .sweepPost] (during ++ [.sweepStep])
        rw [hrun, Option.bind_some, hrun'] at happ
        exact happ
      · simpa using hown
    · refine ⟨[], s.sweepStep .exact maxQueueTime currTm, ?_, ?_, by simp⟩
      · rw [List.nil_append, Server.run, step_sweepStep_eq hs]
        rfl
      · simp [sweepStep, hq, hex]

theorem exists_sweep (hs : s.reqQueueMgr = .asleep) (currTm : Timespec) :
    ∃ during s', Sweep maxQueueTime currTm s during s' ∧
      ∀ a ∈ during, a = .sweepStep ∨ a = .sweepPost := by
  obtain ⟨during, s', hrun, hend, hown⟩ :=
    @exists_ends W maxQueueTime _ currTm { s with reqQueueMgr := .sweeping currTm } rfl
  refine ⟨during, s', ⟨?_, ?_, hend⟩, hown⟩
  · rw [Server.run, step, if_pos hs]
    exact hrun
  · intro tm htm
    rcases hown _ htm with h | h <;> cases h

theorem taken_eq_nil (h : ∀ a ∈ as, a ≠ .excdDequeue) (maxQueueTime : Int) (s : Server W) :
    s.taken maxQueueTime as = [] := by
  induction as generalizing s with
  | nil => rfl
  | cons a as ih =>
    have ha : s.takenBy a = [] := by
      cases a with
      | excdDequeue => exact absurd rfl (h _ List.mem_cons_self)
      | _ => rfl
    rw [taken]
    split
    · rfl
    · rw [ha, ih fun b hb => h b (List.mem_cons_of_mem _ hb), List.nil_append]

end Sweep

end Server

variable {W : Type} [DecidableEq W] {maxQueueTime : Int}

open Server in
/-- In every state that the threads reach, a sweep moves the requests that have waited too long, in
their order, to the end of the other queue, posts the semaphore for each, and leaves the others
where they are, in spite of the steps of the other threads meanwhile: the manager of the timed-out
requests takes some, and passes the semaphore. A sweep that begins comes to its end. -/
theorem sweep_exact {s : Server W} (hs : (monotoneSys W maxQueueTime).Reach s)
    (currTm : Timespec) :
    (∀ during s', Sweep maxQueueTime currTm s during s' →
      s'.reqQ = s.reqQ.filter (fun rq => ¬ Exceeded maxQueueTime currTm rq) ∧
      s.taken maxQueueTime (.sweep currTm :: (during ++ [.sweepStep])) ++ s'.excdTmQ =
        s.excdTmQ ++ s.reqQ.filter (Exceeded maxQueueTime currTm) ∧
      s'.excdTmSem + during.countP waits =
        s.excdTmSem + (s.reqQ.filter (Exceeded maxQueueTime currTm)).length) ∧
    (s.reqQueueMgr = .asleep → ∃ during s', Sweep maxQueueTime currTm s during s' ∧
      (∀ a ∈ during, a = .sweepStep ∨ a = .sweepPost) ∧
      s'.excdTmQ = s.excdTmQ ++ s.reqQ.filter (Exceeded maxQueueTime currTm) ∧
      s'.excdTmSem = s.excdTmSem + (s.reqQ.filter (Exceeded maxQueueTime currTm)).length) := by
  have hq : Sorted s.reqQ := sorted_inductive.reach hs
  have hsweep : ∀ during s', Sweep maxQueueTime currTm s during s' →
      s'.reqQ = s.reqQ.filter (fun rq => ¬ Exceeded maxQueueTime currTm rq) ∧
      s.taken maxQueueTime (.sweep currTm :: (during ++ [.sweepStep])) ++ s'.excdTmQ =
        s.excdTmQ ++ s.reqQ.filter (Exceeded maxQueueTime currTm) ∧
      s'.excdTmSem + during.countP waits =
        s.excdTmSem + (s.reqQ.filter (Exceeded maxQueueTime currTm)).length := by
    intro during s' h
    obtain ⟨hyoung, moved, hm⟩ := h.moved hq
    obtain ⟨hmoved, hkept⟩ := filter_split hm.exceeded hyoung
    rw [← hm.reqQ] at hmoved hkept
    have hsem := hm.excdTmSem
    rw [pending, pending, h.ends, h.cases.1] at hsem
    rw [hmoved, hkept]
    exact ⟨rfl, hm.excdTmQ, hsem⟩
  refine ⟨hsweep, fun hm => ?_⟩
  obtain ⟨during, s', h, hown⟩ := exists_sweep hm currTm
  obtain ⟨-, hexcd, hsem⟩ := hsweep during s' h
  -- the manager alone: nobody takes a request or passes the semaphore meanwhile
  have hnone : s.taken maxQueueTime (.sweep currTm :: (during ++ [.sweepStep])) = [] := by
    apply taken_eq_nil
    rintro a ha rfl
    rcases List.mem_cons.mp ha with ha | ha
    · cases ha
    · rcases List.mem_append.mp ha with ha | ha
      · rcases hown _ ha with h | h <;> cases h
      · cases List.mem_singleton.mp ha
  have hwaits : during.countP waits = 0 := by
    refine List.countP_eq_zero.mpr fun a ha => ?_
    rcases hown a ha with rfl | rfl <;> exact Bool.false_ne_true
  rw [hnone] at hexcd
  rw [hwaits] at hsem
  exact ⟨during, s', h, hown, hexcd, hsem⟩

/-- Three clients, none of them served. -/
def threeWaiting : List (Action (Fin 2)) :=
  [.accept 4 ⟨0, 0⟩, .acceptPost, .accept 5 ⟨1, 900000000⟩, .acceptPost, .accept 6 ⟨2, 100000000⟩]

theorem threeWaiting_reach :
    ∃ s, Server.run .exact 5 .start threeWaiting = some s ∧ (monotoneSys (Fin 2) 5).Reach s := by
  have hsome : (Server.run .exact 5 .start threeWaiting).isSome = true := by decide +kernel
  have hs := (Option.some_get hsome).symm
  exact ⟨_, hs, (Server.reach_monotone hs (by decide +kernel)).1⟩

/-- At 3.05 seconds two of them have waited for more than a second. -/
theorem threeWaiting_sweep :
    ∃ s during s', Server.run .exact 5 .start threeWaiting = some s ∧
      Server.Sweep 5 ⟨3, 50000000⟩ s during s' ∧
      s'.reqQ = [⟨2, 6, ⟨2, 100000000⟩⟩] ∧
      s'.excdTmQ = [⟨0, 4, ⟨0, 0⟩⟩, ⟨1, 5, ⟨1, 900000000⟩⟩] ∧ s'.excdTmSem = 2 := by
  obtain ⟨s, hs, hr⟩ := threeWaiting_reach
  cases hs
  obtain ⟨hsweep, hends⟩ := sweep_exact hr ⟨3, 50000000⟩
  obtain ⟨during, s', h, -, hexcd, hsem⟩ := hends rfl
  refine ⟨_, during, s', rfl, h, ?_, ?_, ?_⟩
  · rw [(hsweep during s' h).1]
    decide +kernel
  · rw [hexcd]
    decide +kernel
  · rw [hsem]
    decide +kernel

end RedisImpl
