import RedisImpl.Cmd.Calls
import RedisImpl.Cmd.Run
import RedisImpl.Lib.Sys

/-!
# Workers on one store

`start_server` runs several workers over one map, and nothing keeps the calls of one command
together: `workers` is the system in which each step of a worker takes its next command, makes one
call to the map, reads once from nodes that `get` gave it, or frees the nodes that its last call
left it. A command is done when its reply is built, and `done` lists the commands in that order.
Reading or freeing nodes that are freed already is a fault.

* `Consistent`: what a run should look like: nothing faults, the commands that are done have the
  replies and the store of a serial run, NX never answers nil after a write, and GET removes nothing
  but the pair it found.
* `Undisturbed`: the step does not write a key that another worker has looked up and has not answered
  yet, but for two writes that change nothing for it: it is about to remove the key and the key is
  removed, or it is an XX about to set the key and the key is set.
* `MemInv`: the pairs of the map and the nodes that are left to clean up are there, in different
  blocks. Every step keeps it, disturbed or not (`MemInv.advance`): no call of the map meets freed
  nodes and none are freed twice, so a fault is a reading of nodes that `get` gave out.
-/

namespace RedisImpl

/-- A command and the clock reading of its handler. -/
abbrev Job := Timespec × Command

/-- A command in progress. -/
structure Running where
  job : Job
  calls : Calls
  /-- What its last call of `get` returned, if it made one. -/
  found : Option Ptr

/-- A worker: the commands that it has not started, the one in progress, and the nodes that the last
one still has to clean up. -/
structure Worker where
  todo : List Job
  cur : Option Running
  trash : Ptr

/-- A command that is done. -/
structure Served (W : Type) where
  worker : W
  job : Job
  reply : Option Bytes
  deriving DecidableEq

/-- The workers, the store, the commands done so far, and whether a step used freed nodes. -/
structure Workers (W : Type) where
  shared : Shared
  worker : W → Worker
  done : List (Served W)
  fault : Bool

/-- The command in progress after its next step, with `calls` left. -/
def Running.next (run : Running) (m : Shared) (calls : Calls) : Running where
  job := run.job
  calls := calls
  found :=
    match run.calls with
    | .get key _ => some (m.get key)
    | _ => run.found

namespace Workers

variable {W : Type} [DecidableEq W]

/-- Workers with the commands `jobs` on the store `m`. -/
def start (m : Shared) (jobs : W → List Job) : Workers W where
  shared := m
  worker w := ⟨jobs w, none, none⟩
  done := []
  fault := false

/-- The worker `w` after a step: at the command `run`, or done with it. -/
def settle (c : Workers W) (w : W) (todo : List Job) (run : Running) (m : Shared) (trash : Ptr) :
    Workers W :=
  match run.calls with
  | .reply r =>
    { c with
      shared := m
      worker := Function.update c.worker w ⟨todo, none, trash⟩
      done := c.done ++ [⟨w, run.job, r⟩] }
  | _ => { c with shared := m, worker := Function.update c.worker w ⟨todo, some run, trash⟩ }

/-- A step of the worker `w`: it cleans up what its last command left it, takes its next command, or
makes the next step of the command in progress. -/
def advance (lc : Libc) (c : Workers W) (w : W) : Option (Workers W) :=
  match (c.worker w).trash with
  | some a =>
    if (c.shared.nodes.load a).isSome then
      some { c with
        shared := c.shared.free a
        worker := Function.update c.worker w ⟨(c.worker w).todo, (c.worker w).cur, none⟩ }
    else some { c with fault := true }
  | none =>
    match (c.worker w).cur with
    | none =>
      match (c.worker w).todo with
      | [] => none
      | job :: todo => some (c.settle w todo ⟨job, job.2.calls lc job.1, none⟩ c.shared none)
    | some run =>
      match run.calls.step c.shared with
      | none => some { c with fault := true }
      | some (calls, m, trash) =>
        some (c.settle w (c.worker w).todo (run.next c.shared calls) m trash)

end Workers

/-- Workers with the commands `jobs` on the store `m`. -/
def workers (W : Type) [DecidableEq W] (lc : Libc) (m : Shared) (jobs : W → List Job) :
    Sys (Workers W) W where
  init c := c = .start m jobs
  step w c c' := c.advance lc w = some c'

/-! ## What a run should look like -/

/-- The stores hold the same entries. -/
def SameEntries (sm sm' : Store) : Prop := ∀ k, entryAt sm k = entryAt sm' k

/-- There is a serial run of the commands that are done with their replies and their store. -/
def Serializable {W : Type} (lc : Libc) (sm : Store) (c : Workers W) : Prop :=
  ∃ order : List (Served W), order.Perm c.done ∧
    (runStore lc (order.map (·.job)) sm).1 = order.map (·.reply) ∧
    SameEntries (runStore lc (order.map (·.job)) sm).2 c.shared.store

/-- SET NX without GET. -/
def Command.PlainNx (cmd : Command) : Prop :=
  ∃ c w, cmd = .set c ∧ c.nxxx = some w ∧ getOptionType w = .nx ∧ c.get = none

/-- SET XX without GET. -/
def Command.PlainXx (cmd : Command) : Prop :=
  ∃ c w, cmd = .set c ∧ c.nxxx = some w ∧ getOptionType w = .xx ∧ c.get = none

/-- What the clients rely on, in a state that a run from the store `sm` reaches. -/
structure Consistent {W : Type} [DecidableEq W] (lc : Libc) (sm : Store) (jobs : W → List Job)
    (c : Workers W) : Prop where
  /-- No worker has used freed nodes. -/
  defined : c.fault = false
  serializable : Serializable lc sm c
  /-- Each worker's commands are done in order; one may be in progress, the others are left. -/
  complete : ∀ w, (c.done.filter (·.worker = w)).map (·.job) ++
    ((c.worker w).cur.map (·.job)).toList ++ (c.worker w).todo = jobs w
  /-- SET NX that answers nil does not change the store. -/
  nx : ∀ w run, (c.worker w).cur = some run → run.job.2.PlainNx →
    ∀ m' trash, run.calls.step c.shared = some (.reply (some nil), m', trash) →
      SameEntries c.shared.store m'.store
  /-- GET that found an expired pair removes that very pair or nothing. -/
  get : ∀ w run, (c.worker w).cur = some run → ∀ key r, run.calls = .removeKey key r →
    ∀ p, run.found = some p →
      (c.shared.removeKey key).2.2 = p ∨ (c.shared.removeKey key).2.2 = none

/-! ## The condition -/

/-- The key that the next call writes. -/
def Calls.writes : Calls → Option Bytes
  | set kvp _ _ => some kvp.key.content
  | removeKey key _ => some key.content
  | _ => none

def Calls.isSet : Calls → Bool
  | set _ _ _ => true
  | _ => false

def Calls.isRemove : Calls → Bool
  | removeKey _ _ => true
  | _ => false

/-- The write `call` changes nothing for the command in progress `run`. -/
def Harmless (call : Calls) (run : Running) : Prop :=
  (call.isRemove = true ∧ run.calls.isRemove = true) ∨
    (call.isSet = true ∧ run.calls.isSet = true ∧ run.job.2.PlainXx)

/-- The next step of the worker `w` does not write a key that another worker has looked up and has
not answered yet, but for harmless writes. -/
def Undisturbed {W : Type} (w : W) (c : Workers W) : Prop :=
  ∀ run, (c.worker w).cur = some run → ∀ w' ≠ w, ∀ run', (c.worker w').cur = some run' →
    run'.found.isSome = true → run.calls.writes = some run'.job.2.key → Harmless run.calls run'

/-! ## The nodes in every run -/

/-- The pairs of the map and the nodes that the workers still have to clean up are there, and they
are different blocks. -/
structure MemInv {W : Type} (c : Workers W) : Prop where
  shared : SharedInv c.shared
  trash : ∀ w a, (c.worker w).trash = some a → c.shared.Spare a
  apart : ∀ w w' a, (c.worker w).trash = some a → (c.worker w').trash = some a → w = w'

/-- What a step of a handler does to the blocks: the spare ones stay, and one that it leaves to clean
up is a new one of these. -/
theorem SharedInv.step {m m' : Shared} (h : SharedInv m) {c c' : Calls} {trash : Ptr}
    (hs : c.step m = some (c', m', trash)) :
    SharedInv m' ∧ (∀ a, m.Spare a → m'.Spare a) ∧
      ∀ a, trash = some a → m'.Spare a ∧ ¬ m.Spare a := by
  cases c with
  | reply r =>
    cases hs
    exact ⟨h, fun _ ha => ha, nofun⟩
  | check next =>
    cases hs
    exact ⟨h, fun _ ha => ha, nofun⟩
  | get key next =>
    cases hs
    exact ⟨h, fun _ ha => ha, nofun⟩
  | read p next =>
    obtain ⟨kvp, -, heq⟩ := Option.map_eq_some_iff.mp hs
    cases heq
    exact ⟨h, fun _ ha => ha, nofun⟩
  | set kvp r cleanUp =>
    obtain ⟨rtn, m₁, old, hset, hinv, hspare, hnew, -⟩ := h.set kvp
    rw [Calls.step, hset] at hs
    cases hs
    refine ⟨hinv, hspare, fun a ha => ?_⟩
    obtain ⟨hc, ha⟩ := Option.ite_none_right_eq_some.mp ha
    cases ha
    -- A pair that went into the map is never cleaned up.
    refine hnew ?_
    rintro rfl
    cases cleanUp <;> cases hc
  | removeKey key r =>
    obtain ⟨state, m₁, hrm, hinv, hspare, hnew, -⟩ := h.removeKey key
    rw [Calls.step, hrm] at hs
    cases hs
    refine ⟨hinv, hspare, fun a ha => ?_⟩
    obtain ⟨e, he, rfl⟩ := Option.map_eq_some_iff.mp ha
    exact hnew e he

theorem Shared.Spare.free {m : Shared} {a b : Nat} (h : m.Spare b) (hab : a ≠ b) :
    (m.free a).Spare b :=
  ⟨(congrArg Option.isSome (Heap.load_free_ne hab)).trans h.1, h.2⟩

section Memory

variable {W : Type} [DecidableEq W] {lc : Libc} {c c' : Workers W} {w : W}

theorem Workers.shared_settle (c : Workers W) (w : W) (todo : List Job) (run : Running) (m : Shared)
    (trash : Ptr) : (c.settle w todo run m trash).shared = m := by
  unfold Workers.settle
  split
  · rfl
  · rfl

theorem Workers.fault_settle (c : Workers W) (w : W) (todo : List Job) (run : Running) (m : Shared)
    (trash : Ptr) : (c.settle w todo run m trash).fault = c.fault := by
  unfold Workers.settle
  split
  · rfl
  · rfl

theorem Workers.settle_other (c : Workers W) {w w' : W} (hw : w' ≠ w) (todo : List Job)
    (run : Running) (m : Shared) (trash : Ptr) :
    (c.settle w todo run m trash).worker w' = c.worker w' := by
  unfold Workers.settle
  split
  · exact Function.update_of_ne hw ..
  · exact Function.update_of_ne hw ..

theorem Workers.trash_settle (c : Workers W) (w : W) (todo : List Job) (run : Running) (m : Shared)
    (trash : Ptr) : ((c.settle w todo run m trash).worker w).trash = trash := by
  unfold Workers.settle
  split
  · simp only [Function.update_self]
  · simp only [Function.update_self]

/-- A worker without nodes to clean up gets to the store `m`, and may have some there. -/
theorem MemInv.settle (h : MemInv c) {todo : List Job} {run : Running} {m : Shared} {trash : Ptr}
    (hm : SharedInv m) (hspare : ∀ a, c.shared.Spare a → m.Spare a)
    (hnew : ∀ a, trash = some a → m.Spare a ∧ ¬ c.shared.Spare a) :
    MemInv (c.settle w todo run m trash) := by
  -- The nodes to clean up are the new ones, with `w`, or old ones, with another worker.
  have hcases : ∀ w' a, ((c.settle w todo run m trash).worker w').trash = some a →
      (w' = w ∧ trash = some a) ∨ (w' ≠ w ∧ (c.worker w').trash = some a) := by
    intro w' a ha
    by_cases hw : w' = w
    · subst hw
      rw [c.trash_settle] at ha
      exact .inl ⟨rfl, ha⟩
    · rw [c.settle_other hw] at ha
      exact .inr ⟨hw, ha⟩
  refine ⟨?_, fun w' a ha => ?_, fun w' w'' a ha ha' => ?_⟩
  · rw [c.shared_settle]
    exact hm
  · rw [c.shared_settle]
    rcases hcases w' a ha with ⟨-, ht⟩ | ⟨-, ht⟩
    · exact (hnew a ht).1
    · exact hspare a (h.trash w' a ht)
  · rcases hcases w' a ha with ⟨hw, ht⟩ | ⟨-, ht⟩
    · rcases hcases w'' a ha' with ⟨hw', -⟩ | ⟨-, ht'⟩
      · rw [hw, hw']
      · exact absurd (h.trash w'' a ht') (hnew a ht).2
    · rcases hcases w'' a ha' with ⟨-, ht'⟩ | ⟨-, ht'⟩
      · exact absurd (h.trash w' a ht) (hnew a ht').2
      · exact h.apart w' w'' a ht ht'

/-- The worker `w` cleans up the nodes that its last command left it. -/
theorem MemInv.free (h : MemInv c) {a : Nat} (htrash : (c.worker w).trash = some a) :
    MemInv { c with
      shared := c.shared.free a
      worker := Function.update c.worker w ⟨(c.worker w).todo, (c.worker w).cur, none⟩ } := by
  -- Only another worker has nodes left to clean up, and they are not those at `a`.
  have hothers : ∀ w' b, (Function.update c.worker w
      ⟨(c.worker w).todo, (c.worker w).cur, none⟩ w').trash = some b →
      (c.worker w').trash = some b ∧ a ≠ b := by
    intro w' b hb
    by_cases hw : w' = w
    · subst hw
      rw [Function.update_self] at hb
      cases hb
    · rw [Function.update_of_ne hw] at hb
      refine ⟨hb, ?_⟩
      rintro rfl
      exact hw (h.apart w' w a hb htrash)
  exact ⟨h.shared.free (h.trash w a htrash),
    fun w' b hb => (h.trash w' b (hothers w' b hb).1).free (hothers w' b hb).2,
    fun w' w'' b hb hb' => h.apart w' w'' b (hothers w' b hb).1 (hothers w'' b hb').1⟩

/-- Every step keeps the nodes in order, also one that reads freed nodes. -/
theorem MemInv.advance (h : MemInv c) (hs : c.advance lc w = some c') : MemInv c' := by
  have hfault : MemInv { c with fault := true } := ⟨h.shared, h.trash, h.apart⟩
  unfold Workers.advance at hs
  cases htrash : (c.worker w).trash with
  | some a =>
    rw [htrash] at hs
    simp only [if_pos (h.trash w a htrash).1] at hs
    cases hs
    exact h.free htrash
  | none =>
    rw [htrash] at hs
    cases hcur : (c.worker w).cur with
    | none =>
      rw [hcur] at hs
      cases htodo : (c.worker w).todo with
      | nil =>
        rw [htodo] at hs
        cases hs
      | cons job todo =>
        rw [htodo] at hs
        cases hs
        exact h.settle h.shared (fun _ ha => ha) nofun
    | some run =>
      rw [hcur] at hs
      cases hstep : run.calls.step c.shared with
      | none =>
        simp only [hstep] at hs
        cases hs
        exact hfault
      | some x =>
        obtain ⟨calls, m, trash⟩ := x
        simp only [hstep] at hs
        cases hs
        obtain ⟨hm, hspare, hnew⟩ := h.shared.step hstep
        exact h.settle hm hspare hnew

omit [DecidableEq W] in
theorem memInv_start {m : Shared} (hm : SharedInv m) (jobs : W → List Job) :
    MemInv (Workers.start m jobs) := ⟨hm, nofun, nofun⟩

end Memory

end RedisImpl
