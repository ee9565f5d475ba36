import RedisImpl.Cmd.InProgress

/-!
# Interleaved commands

* `WorkersInv`: nothing has faulted, the commands that are done are a serial run in this order, and
  each command in progress can go on as if it started now.
* `consistent_of_undisturbed`: runs whose steps are all `Undisturbed` are consistent.
* `nxRace_not_consistent`: two SET NX of one key, interleaved, are no serial run.
-/

namespace RedisImpl

/-! ## The invariant of the system -/

section System

variable {W : Type} [DecidableEq W] {lc : Libc} {m : Shared} {jobs : W → List Job}

/-- Nothing faulted, and the commands that are done are a serial run, in the order of their last
steps. -/
structure WorkersInv (lc : Libc) (sm : Store) (jobs : W → List Job) (c : Workers W) : Prop where
  memory : MemInv c
  defined : c.fault = false
  serial : runStore lc (c.done.map (·.job)) sm = (c.done.map (·.reply), c.shared.store)
  runs : ∀ w run, (c.worker w).cur = some run → RunInv lc c.shared run
  complete : ∀ w, (c.done.filter (·.worker = w)).map (·.job) ++
    ((c.worker w).cur.map (·.job)).toList ++ (c.worker w).todo = jobs w

/-- The worker `w` gets to the command `run`, or is done with it. -/
theorem WorkersInv.settle {sm : Store} {c : Workers W} (h : WorkersInv lc sm jobs c) {w : W}
    {todo : List Job} {run : Running} {m' : Shared} {trash : Ptr}
    (hmem : MemInv (c.settle w todo run m' trash))
    (hothers : ∀ w' ≠ w, ∀ run', (c.worker w').cur = some run' → RunInv lc m' run')
    (hdone : ∀ r, run.calls = .reply r →
      run.job.2.exec lc run.job.1 c.shared.store = (r, m'.store))
    (hrun : (∀ r, run.calls ≠ .reply r) → m' = c.shared ∧ RunInv lc m' run)
    (hjobs : (c.done.filter (·.worker = w)).map (·.job) ++ run.job :: todo = jobs w) :
    WorkersInv lc sm jobs (c.settle w todo run m' trash) := by
  by_cases hr : ∃ r, run.calls = .reply r
  · obtain ⟨r, hr⟩ := hr
    have hset : c.settle w todo run m' trash =
        ⟨m', Function.update c.worker w ⟨todo, none, trash⟩, c.done ++ [⟨w, run.job, r⟩],
          c.fault⟩ := by
      rw [Workers.settle, hr]
    rw [hset] at hmem ⊢
    refine ⟨hmem, h.defined, ?_, fun w' run' hcur => ?_, fun w' => ?_⟩
    · rw [List.map_append, List.map_append, List.map_singleton, List.map_singleton,
        runStore_concat, h.serial, hdone r hr]
    · by_cases hw : w' = w
      · subst hw
        simp at hcur
      · simp only [Function.update_of_ne hw] at hcur
        exact hothers w' hw run' hcur
    · by_cases hw : w' = w
      · subst hw
        simpa [List.filter_append] using hjobs
      · simp only [List.filter_append, Function.update_of_ne hw]
        simpa [Ne.symm hw] using h.complete w'
  · have hr' : ∀ r, run.calls ≠ .reply r := fun r he => hr ⟨r, he⟩
    have hset : c.settle w todo run m' trash =
        { c with shared := m', worker := Function.update c.worker w ⟨todo, some run, trash⟩ } := by
      unfold Workers.settle
      split
      · rename_i r he
        exact absurd he (hr' r)
      · rfl
    obtain ⟨rfl, hinv⟩ := hrun hr'
    rw [hset] at hmem ⊢
    refine ⟨hmem, h.defined, h.serial, fun w' run' hcur => ?_, fun w' => ?_⟩
    · by_cases hw : w' = w
      · subst hw
        obtain rfl : run = run' := by simpa using hcur
        exact hinv
      · simp only [Function.update_of_ne hw] at hcur
        exact h.runs w' run' hcur
    · by_cases hw : w' = w
      · subst hw
        simpa using hjobs
      · simpa [Function.update_of_ne hw] using h.complete w'

/-- Cleaning up does not touch the map, so it changes nothing for the commands in progress. -/
theorem WorkersInv.free {sm : Store} {c : Workers W} (h : WorkersInv lc sm jobs c) {w : W} {a : Nat}
    (hmem : MemInv { c with
      shared := c.shared.free a
      worker := Function.update c.worker w ⟨(c.worker w).todo, (c.worker w).cur, none⟩ }) :
    WorkersInv lc sm jobs { c with
      shared := c.shared.free a
      worker := Function.update c.worker w ⟨(c.worker w).todo, (c.worker w).cur, none⟩ } := by
  have hsame : ∀ w', (Function.update c.worker w ⟨(c.worker w).todo, (c.worker w).cur, none⟩ w').cur =
      (c.worker w').cur ∧
      (Function.update c.worker w ⟨(c.worker w).todo, (c.worker w).cur, none⟩ w').todo =
        (c.worker w').todo := by
    intro w'
    by_cases hw : w' = w
    · subst hw
      simp only [Function.update_self, and_self]
    · simp only [Function.update_of_ne hw, and_self]
  refine ⟨hmem, h.defined, h.serial, fun w' run hcur => ?_, fun w' => ?_⟩
  · exact (h.runs w' run ((hsame w').1.symm.trans hcur)).of_entry fun _ => rfl
  · have := h.complete w'
    rwa [← (hsame w').1, ← (hsame w').2] at this

/-- The worker `w` takes its next command, on a store that stays as it is. -/
theorem WorkersInv.take {sm : Store} {c : Workers W} (h : WorkersInv lc sm jobs c) {w : W}
    {job : Job} {todo : List Job}
    (hmem : MemInv (c.settle w todo ⟨job, job.2.calls lc job.1, none⟩ c.shared none))
    (hjobs : (c.done.filter (·.worker = w)).map (·.job) ++ job :: todo = jobs w) :
    WorkersInv lc sm jobs (c.settle w todo ⟨job, job.2.calls lc job.1, none⟩ c.shared none) := by
  have hrun : RunInv lc c.shared ⟨job, job.2.calls lc job.1, none⟩ := runInv_start lc c.shared job
  refine h.settle hmem (fun w' _ run' hc => h.runs w' run' hc) (fun r hr => ?_)
    (fun _ => ⟨rfl, hrun⟩) hjobs
  -- A command that answers at once does so on the store as it is.
  have hagree := hrun.agree c.shared h.memory.shared nofun
  rw [hr] at hagree
  exact (Option.some.inj hagree).symm

/-- The worker `w` goes on with the command `run`, undisturbing. -/
theorem WorkersInv.next {sm : Store} {c : Workers W} (h : WorkersInv lc sm jobs c) {w : W}
    {run : Running} (hcur : (c.worker w).cur = some run) (hu : Undisturbed w c) {calls : Calls}
    {m' : Shared} {trash : Ptr} (hs : run.calls.step c.shared = some (calls, m', trash))
    (hmem : MemInv (c.settle w (c.worker w).todo (run.next c.shared calls) m' trash)) :
    WorkersInv lc sm jobs
      (c.settle w (c.worker w).todo (run.next c.shared calls) m' trash) := by
  have hshared := h.memory.shared
  have hinv := h.runs w run hcur
  have hdone (r : Option Bytes) (hr : calls = .reply r) :
      run.job.2.exec lc run.job.1 c.shared.store = (r, m'.store) := by
    have hnext := hinv.run_next hshared hs
    rw [hr] at hnext
    exact (Option.some.inj hnext).symm
  have hjobs : (c.done.filter (·.worker = w)).map (·.job) ++ run.job :: (c.worker w).todo =
      jobs w := by
    simpa [hcur] using h.complete w
  cases hw : run.calls.writes with
  | none =>
    obtain ⟨rfl, rfl, hinv'⟩ := hinv.next_of_read hshared hw hs
    exact h.settle hmem (fun w' _ run' hc => h.runs w' run' hc) hdone (fun _ => ⟨rfl, hinv'⟩) hjobs
  | some k =>
    -- The write is the last step, so only the other commands have to go on.
    obtain ⟨r, hr⟩ := reply_of_writes hw hs
    refine h.settle hmem (fun w' hne run' hc => ?_) hdone (fun hno => absurd hr (hno r)) hjobs
    exact (h.runs w' run' hc).of_write hshared hw hs fun hf hk =>
      hu run hcur w' hne run' hc hf (by rw [hw, hk])

/-- Every undisturbed step keeps the invariant. -/
theorem workersInv_inductive (hm : SharedInv m) :
    ((workers W lc m jobs).restrict Undisturbed).Inductive (WorkersInv lc m.store jobs) where
  init := by
    rintro c rfl
    refine ⟨memInv_start hm jobs, rfl, rfl, fun w run hcur => ?_, fun w => by simp [Workers.start]⟩
    cases hcur
  step := by
    rintro w c c' h ⟨hstep, hu⟩
    have hmem : MemInv c' := h.memory.advance hstep
    simp only [workers, Workers.advance] at hstep
    cases htrash : (c.worker w).trash with
    | some a =>
      rw [htrash] at hstep
      simp only [if_pos (h.memory.trash w a htrash).1] at hstep
      cases hstep
      exact h.free hmem
    | none =>
      rw [htrash] at hstep
      cases hcur : (c.worker w).cur with
      | none =>
        have hcomplete := h.complete w
        rw [hcur] at hstep hcomplete
        cases htodo : (c.worker w).todo with
        | nil =>
          rw [htodo] at hstep
          cases hstep
        | cons job todo =>
          rw [htodo] at hstep hcomplete
          cases hstep
          exact h.take hmem (by simpa using hcomplete)
      | some run =>
        rw [hcur] at hstep
        -- What the command does next is defined, as it agrees with the whole command.
        obtain ⟨calls, m', trash, hs⟩ := (h.runs w run hcur).step h.memory.shared
        simp only [hs] at hstep
        cases hstep
        exact h.next hcur hu hs hmem

/-- SET NX that answers nil leaves the store alone. -/
theorem exec_nx_nil {sm sm' : Store} (hi : StoreInv sm) {cmd : Command} (hx : cmd.PlainNx)
    (lc : Libc) (now : Timespec) (h : cmd.exec lc now sm = (some nil, sm')) : SameEntries sm sm' := by
  obtain ⟨c, w, rfl, hw, hnx, hg⟩ := hx
  rw [Command.exec, handleSetCmd_args] at h
  by_cases he : c.key = [] ∨ c.value = []
  · rw [executeSetCmd_empty now .ok he] at h
    cases h
  · rw [not_or] at he
    rw [executeSetCmd_eq now .ok he.1 he.2, hw, hg] at h
    cases ht : c.time with
    | some t =>
      rw [ht] at h
      cases h
    | none =>
      have hc : c.parsedCmd.content 3 = some w.1 := by
        rw [ParsedCmd.content, SetCommand.parsedCmd_nxxx, hw]
        rfl
      rw [ht] at h
      simp only [executeSetNxXx, hi.check, hc, if_pos (getOptionType_nx.mp hnx),
        get_eq_entryAt] at h
      cases hfound : entryAt sm (newPair c now).key.content with
      | some found =>
        rw [hfound] at h
        cases h
        exact fun _ => rfl
      | none =>
        rw [hfound] at h
        obtain ⟨rtn, sm₁, old, hset, -, -, hcase⟩ := hi.set (newPair c now)
        simp only [hset] at h
        rcases hcase with ⟨rfl, -, -⟩ | ⟨-, hsome, -⟩ | ⟨rfl, -, rfl, -⟩
        · exact absurd (Option.some.inj (Prod.mk.inj h).1) (by decide)
        · rw [hfound] at hsome
          cases hsome
        · cases h
          exact fun _ => rfl

/-- Runs whose steps are all undisturbed are consistent, in every state they reach. -/
theorem consistent_of_undisturbed (hm : SharedInv m) {c : Workers W}
    (hc : ((workers W lc m jobs).restrict Undisturbed).Reach c) :
    Consistent lc m.store jobs c := by
  have h := (workersInv_inductive hm).reach hc
  have hshared := h.memory.shared
  refine ⟨h.defined, ⟨c.done, .refl _, ?_, ?_⟩, h.complete, ?_, ?_⟩
  · rw [h.serial]
  · rw [h.serial]
    exact fun _ => rfl
  · intro w run hcur hx m' trash hstep
    refine exec_nx_nil hshared.store hx lc run.job.1 ?_
    exact (Option.some.inj ((h.runs w run hcur).run_next hshared hstep)).symm
  · intro w run hcur key r hcalls p hp
    have hinv := h.runs w run hcur
    obtain ⟨state, m', hrm, -⟩ := hshared.removeKey key
    have hkey : key.content = run.job.2.key := by
      have hfits := hinv.fits
      rw [hcalls] at hfits
      obtain ⟨k, hjob, -, rfl, -⟩ := hfits
      rw [hjob]
      rfl
    rw [hrm, hkey]
    rcases hinv.found p hp with hset | he | ⟨-, he⟩
    · rw [hcalls] at hset
      cases hset
    · exact .inl he
    · right
      rw [he]
      rfl

/-- A step of the worker `w` leaves the others as they are. -/
theorem Workers.advance_other {c c' : Workers W} {w w' : W} (h : c.advance lc w = some c')
    (hw : w' ≠ w) : c'.worker w' = c.worker w' := by
  unfold Workers.advance at h
  split at h
  · split at h
    · cases h
      exact Function.update_of_ne hw ..
    · cases h
      rfl
  · split at h
    · split at h
      · cases h
      · cases h
        exact c.settle_other hw ..
    · split at h
      · cases h
        rfl
      · cases h
        exact c.settle_other hw ..

/-- The state after the steps of the workers `ws`. -/
def stepsOf (lc : Libc) : List W → Workers W → Option (Workers W)
  | [], c => some c
  | w :: ws, c => (c.advance lc w).bind (stepsOf lc ws)

theorem reach_stepsOf {ws : List W} {c c' : Workers W} (hc : (workers W lc m jobs).Reach c)
    (h : stepsOf lc ws c = some c') : (workers W lc m jobs).Reach c' := by
  induction ws generalizing c with
  | nil =>
    cases h
    exact hc
  | cons w ws ih =>
    obtain ⟨c₁, h₁, h₂⟩ := Option.bind_eq_some_iff.mp h
    exact ih (.step w hc h₁) h₂

/-- A worker that runs alone is not disturbed. -/
theorem reach_alone {w : W} {n : Nat} {c c' : Workers W}
    (hc : ((workers W lc m jobs).restrict Undisturbed).Reach c)
    (hidle : ∀ w' ≠ w, (c.worker w').cur = none)
    (h : stepsOf lc (List.replicate n w) c = some c') :
    ((workers W lc m jobs).restrict Undisturbed).Reach c' := by
  induction n generalizing c with
  | zero =>
    cases h
    exact hc
  | succ n ih =>
    obtain ⟨c₁, h₁, h₂⟩ := Option.bind_eq_some_iff.mp h
    refine ih (.step w hc ⟨h₁, ?_⟩) (fun w' hw => ?_) h₂
    · intro run _ w' hw run' hcur
      rw [hidle w' hw] at hcur
      cases hcur
    · rw [Workers.advance_other h₁ hw]
      exact hidle w' hw

end System

/-! ## Two SET NX of one key -/

/-- `SET k v NX`. -/
def nxCommand (v : String) : SetCommand where
  key := ascii "k"
  value := ascii v
  nxxx := some ⟨ascii "NX", condWord_nx⟩
  get := none
  time := none

/-- One worker has `SET k v NX`, the other `SET k w NX`. -/
def nxJobs (w : Bool) : List Job := [(⟨0, 0⟩, .set (nxCommand (if w then "w" else "v")))]

/-- Both workers look the key up before either sets it. -/
def nxRace : Option (Workers Bool) :=
  stepsOf .exact [false, false, false, true, true, true, false, true]
    (.start .create nxJobs)

/-- The commands of the race, with the replies they get. -/
def nxServed (w : Bool) (reply : Bytes) : Served Bool :=
  ⟨w, (⟨0, 0⟩, .set (nxCommand (if w then "w" else "v"))), some reply⟩

/-- The orders of two commands. -/
theorem perm_pair {α : Type} {a b : α} {order : List α} (h : order.Perm [a, b]) :
    order = [a, b] ∨ order = [b, a] := by
  obtain ⟨x, y, rfl⟩ := List.length_eq_two.mp h.length_eq
  have hx : x = a ∨ x = b := by simpa using h.subset (List.mem_cons_self (a := x))
  rcases hx with rfl | rfl
  · left
    rw [List.perm_singleton.mp ((List.perm_cons x).mp h)]
  · right
    rw [List.perm_singleton.mp ((List.perm_cons x).mp (h.trans (.swap x a [])))]

/-- Two interleaved SET NX: the second one answers nil, and its value is the one in the store. -/
theorem nxRace_not_consistent :
    ∃ c, (workers Bool .exact .create nxJobs).Reach c ∧ c.fault = false ∧
      (∀ w, (c.worker w).todo = [] ∧ (c.worker w).cur.isNone = true) ∧
      c.done = [nxServed false ok, nxServed true nil] ∧
      (entryAt c.shared.store (ascii "k")).map (·.value.content) = some (ascii "w") ∧
      ¬ Serializable .exact Shared.create.store c ∧
      ¬ Consistent .exact Shared.create.store nxJobs c := by
  obtain ⟨c, hc⟩ : ∃ c, nxRace = some c := Option.isSome_iff_exists.mp (by decide +kernel)
  have heval {α : Type} {f : Workers Bool → α} {a : α} (h : nxRace.map f = some a) : f c = a := by
    rw [hc] at h
    exact Option.some.inj h
  have hidle (w : Bool) : (c.worker w).todo = [] ∧ (c.worker w).cur.isNone = true := by
    cases w with
    | false =>
      exact ⟨heval (f := fun c => (c.worker false).todo) (by decide +kernel),
        heval (f := fun c => (c.worker false).cur.isNone) (by decide +kernel)⟩
    | true =>
      exact ⟨heval (f := fun c => (c.worker true).todo) (by decide +kernel),
        heval (f := fun c => (c.worker true).cur.isNone) (by decide +kernel)⟩
  have hdone : c.done = [nxServed false ok, nxServed true nil] :=
    heval (f := fun c => c.done) (by decide +kernel)
  have hstore : (entryAt c.shared.store (ascii "k")).map (·.value.content) = some (ascii "w") :=
    heval (f := fun c => (entryAt c.shared.store (ascii "k")).map (·.value.content))
      (by decide +kernel)
  have hnot : ¬ Serializable .exact Shared.create.store c := by
    rintro ⟨order, hperm, hreplies, hentries⟩
    rw [hdone] at hperm
    rcases perm_pair hperm with rfl | rfl
    · rw [← hentries] at hstore
      exact absurd hstore (by decide +kernel)
    · exact absurd hreplies (by decide +kernel)
  exact ⟨c, reach_stepsOf (.init rfl) hc, heval (f := (·.fault)) (by decide +kernel), hidle, hdone,
    hstore, hnot,
    fun h => hnot h.serializable⟩

/-- One worker's SET NX, with nothing in between. -/
theorem nxAlone_consistent :
    ∃ c, c.done = [nxServed false ok] ∧
      Consistent .exact Shared.create.store nxJobs c := by
  have hinit : ((workers Bool .exact .create nxJobs).restrict Undisturbed).Reach
      (.start .create nxJobs) := .init rfl
  obtain ⟨c, hc⟩ : ∃ c, stepsOf .exact (List.replicate 4 false)
      (.start .create nxJobs : Workers Bool) = some c :=
    Option.isSome_iff_exists.mp (by decide +kernel)
  have hdone : c.done = [nxServed false ok] := by
    have : (stepsOf .exact (List.replicate 4 false)
      (.start .create nxJobs : Workers Bool)).map (·.done) = some [nxServed false ok] := by
        decide +kernel
    rw [hc] at this
    exact Option.some.inj this
  exact ⟨c, hdone, consistent_of_undisturbed sharedInv_create (reach_alone hinit (fun _ _ => rfl) hc)⟩

/-! ## A GET whose key is set before it has read the pair -/

/-- One worker has `SET k v` and `SET k w`, the other `GET k`. -/
def getJobs (w : Bool) : List Job :=
  if w then
    [(⟨0, 0⟩, .set ⟨ascii "k", ascii "v", none, none, none⟩),
      (⟨0, 0⟩, .set ⟨ascii "k", ascii "w", none, none, none⟩)]
  else [(⟨0, 0⟩, .get (ascii "k"))]

example : (stepsOf .exact [true, true, true, false, false, true, true, true, true, false]
    (.start .create getJobs)).map (·.fault) = some true := by decide +kernel

end RedisImpl
