import RedisImpl.Cmd.Workers

/-!
# A command in progress among other workers

`Calls.Fits`: the steps of a command are about its key, and it reads only from the pair that it found
last (`fits_calls`). `RunInv`: what a command in progress can rely on: run from here on without
interruption, it does what it would do if it started now, and reads no freed nodes.

* `RunInv.step`, `RunInv.run_next`: its next step is defined, and the rest does what the whole command
  does now.
* `RunInv.next_of_read`: its own steps that do not write keep the invariant.
* `RunInv.of_entry`, `RunInv.of_write`: so do the steps of other workers that leave the entry of its
  key, and their writes that do not disturb it.
-/

namespace RedisImpl

/-! ## What the calls of a command look like -/

/-- The steps of the command `job`, which found `found` last: its calls are about its key, it reads
only from the pair that it found, GET removes the key only, and XX sets the command's own pair. -/
def Calls.Fits (job : Job) : Calls → Option Ptr → Prop
  | reply _, _ => True
  | check next, found => ∀ b, (next b).Fits job found
  | get key next, _ => key.content = job.2.key ∧ ∀ p, (next p).Fits job (some p)
  | read p next, found => found = some (some p) ∧ ∀ kvp, (next kvp).Fits job found
  | set kvp r _, _ =>
    kvp.key.content = job.2.key ∧
      (job.2.PlainXx → ∃ c, job.2 = .set c ∧ c.key ≠ [] ∧ c.value ≠ [] ∧ c.time = none ∧
        kvp = newPair c job.1 ∧ r = Calls.setReply .sucessUpgrade)
  | removeKey key r, _ =>
    ∃ k, job.2 = .get k ∧ k ≠ [] ∧ key = ⟨k, job.1, 0, 0⟩ ∧ r = Calls.removeReply

theorem Calls.fits_checked {job : Job} {next : Calls} {found : Option Ptr}
    (h : next.Fits job found) : (checked next).Fits job found := by
  intro b
  cases b with
  | false => trivial
  | true => exact h

/-- The executors as calls, by the options of the command. -/
theorem Calls.executeSetCmd_eq (now : Timespec) {c : SetCommand} (hk : c.key ≠ [])
    (hv : c.value ≠ []) :
    Calls.executeSetCmd now c.state c.parsedCmd =
      match c.nxxx, c.get, c.time with
      | none, none, none => executeSetBasic (newPair c now)
      | none, some _, none => executeSetGet (newPair c now)
      | some _, none, none => executeSetNxXx (newPair c now) c.parsedCmd
      | some _, some _, none => executeSetNxxxGet (newPair c now) c.parsedCmd
      | none, none, some _ => executeSetExPxExatPxat (newPair c now) c.parsedCmd
      | _, _, some _ => reply none := by
  simp only [executeSetCmd, ParsedCmd.content, SetCommand.parsedCmd_key,
    SetCommand.parsedCmd_value, Option.bind_some, Node.bulkContent_bulk, createKeyNode_of_ne hk,
    createValueNode_of_ne hv]
  exact c.executor _ _ _ _ _ _

theorem Calls.executeSetCmd_empty (now : Timespec) {c : SetCommand}
    (h : c.key = [] ∨ c.value = []) :
    Calls.executeSetCmd now c.state c.parsedCmd = reply none := by
  simp only [executeSetCmd, ParsedCmd.content, SetCommand.parsedCmd_key,
    SetCommand.parsedCmd_value, Option.bind_some, Node.bulkContent_bulk]
  by_cases hk : c.key = []
  · simp [createKeyNode, hk]
  · rw [createKeyNode_of_ne hk]
    simp [createValueNode, createValueNodeString, h.resolve_left hk]

section Fits

variable {now : Timespec} {c : SetCommand} {found : Option Ptr}

/-- A pair that is set under the command's key, by a command that is not a plain XX. -/
theorem fits_set {kvp : KeyValuePair KeyNode ValueNode}
    {r : SetRtn → KeyValuePair KeyNode ValueNode → Option Bytes} {cleanUp : SetCleanUp}
    (hk : kvp.key.content = c.key) (hx : ¬ (Command.set c).PlainXx) :
    (Calls.set kvp r cleanUp).Fits (now, .set c) found :=
  ⟨hk, fun h => absurd h hx⟩

theorem not_plainXx (h : c.nxxx = none ∨ c.get ≠ none) : ¬ (Command.set c).PlainXx := by
  rintro ⟨c', w, hc, hw, -, hg⟩
  cases hc
  rcases h with h | h
  · rw [h] at hw
    cases hw
  · exact h hg

/-- Another reply makes no difference to a SET that is not a plain XX. -/
theorem fits_mapReply (f : Option Bytes → Option Bytes) (hx : ¬ (Command.set c).PlainXx)
    {calls : Calls} (h : calls.Fits (now, .set c) found) :
    (calls.mapReply f).Fits (now, .set c) found := by
  induction calls generalizing found with
  | reply r => trivial
  | check next ih => exact fun b => ih b (h b)
  | get key next ih => exact ⟨h.1, fun p => ih p (h.2 p)⟩
  | read p next ih => exact ⟨h.1, fun kvp => ih kvp (h.2 kvp)⟩
  | set kvp r cleanUp => exact fits_set h.1 hx
  | removeKey key r =>
    obtain ⟨k, hget, -⟩ := h
    cases hget

/-- The calls of NX and XX. -/
theorem fits_executeSetNxXx (hk : c.key ≠ []) (hv : c.value ≠ []) (ht : c.time = none) :
    (Calls.executeSetNxXx (newPair c now) c.parsedCmd).Fits (now, .set c) found := by
  refine Calls.fits_checked ?_
  cases hw : c.nxxx with
  | none =>
    have hc : c.parsedCmd.content 3 = none := by
      rw [ParsedCmd.content, SetCommand.parsedCmd_nxxx, hw]
      rfl
    rw [hc]
    trivial
  | some w =>
    have hc : c.parsedCmd.content 3 = some w.1 := by
      rw [ParsedCmd.content, SetCommand.parsedCmd_nxxx, hw]
      rfl
    rw [hc]
    simp only
    split
    · rename_i hnx
      have hx : ¬ (Command.set c).PlainXx := by
        rintro ⟨c', w', hc', hw', hxx, -⟩
        cases hc'
        rw [hw] at hw'
        cases hw'
        rw [getOptionType_nx.mpr hnx] at hxx
        cases hxx
      refine ⟨rfl, fun old => ?_⟩
      cases old with
      | none => exact fits_set rfl hx
      | some old => trivial
    · split
      · refine ⟨rfl, fun old => ?_⟩
        cases old with
        | none => trivial
        | some old => exact ⟨rfl, fun _ => ⟨c, rfl, hk, hv, ht, rfl, rfl⟩⟩
      · trivial

/-- The calls of NX GET and XX GET. -/
theorem fits_executeSetNxxxGet (hk : c.key ≠ []) (hv : c.value ≠ []) (ht : c.time = none)
    (hg : c.get ≠ none) :
    (Calls.executeSetNxxxGet (newPair c now) c.parsedCmd).Fits (now, .set c) found := by
  have hthen (rtnVal : Bytes) (found : Option Ptr) :
      (Calls.thenNxXx (newPair c now) c.parsedCmd rtnVal).Fits (now, .set c) found :=
    fits_mapReply _ (not_plainXx (.inr hg)) (fits_executeSetNxXx hk hv ht)
  refine Calls.fits_checked ?_
  split
  · trivial
  · refine ⟨rfl, fun kvpOld => ?_⟩
    cases kvpOld with
    | none => exact hthen nil _
    | some p =>
      refine ⟨rfl, fun _ => ⟨rfl, fun old => ?_⟩⟩
      obtain ⟨key, value, dtype⟩ := old
      cases dtype with
      | bulkStr => exact ⟨rfl, fun old => hthen _ _⟩
      | _ => exact hthen nil _

/-- The calls of the expiry options. -/
theorem fits_executeSetExPxExatPxat (hx : ¬ (Command.set c).PlainXx) :
    (Calls.executeSetExPxExatPxat (newPair c now) c.parsedCmd).Fits (now, .set c) found := by
  refine Calls.fits_checked ?_
  split
  · rename_i option timeNd _ _
    simp only
    cases getOptionType option with
    | ex | exat | px | pxat => exact Calls.fits_checked (fits_set rfl hx)
    | nx | xx | get | invalid => trivial
  · trivial

theorem fits_handleSetCmd (now : Timespec) (c : SetCommand) :
    (Calls.handleSetCmd now c.args).Fits (now, .set c) found := by
  rw [Calls.handleSetCmd, validateSetCmd_args]
  by_cases he : c.key = [] ∨ c.value = []
  · simp only [Calls.executeSetCmd_empty now he]
    trivial
  · rw [not_or] at he
    obtain ⟨hk, hv⟩ := he
    simp only [Calls.executeSetCmd_eq now hk hv]
    cases hn : c.nxxx with
    | none =>
      have hx : ¬ (Command.set c).PlainXx := not_plainXx (.inl hn)
      cases hg : c.get with
      | none =>
        cases ht : c.time with
        | none => exact Calls.fits_checked (fits_set rfl hx)
        | some t => exact fits_executeSetExPxExatPxat hx
      | some g =>
        cases ht : c.time with
        | none => exact Calls.fits_checked (fits_set rfl hx)
        | some t => trivial
    | some w =>
      cases hg : c.get with
      | none =>
        cases ht : c.time with
        | none => exact fits_executeSetNxXx hk hv ht
        | some t => trivial
      | some g =>
        cases ht : c.time with
        | none => exact fits_executeSetNxxxGet hk hv ht (by simp [hg])
        | some t => trivial

theorem fits_handleGetCmd (lc : Libc) (now : Timespec) (k : Bytes) :
    (Calls.handleGetCmd lc now [.bulk k]).Fits (now, .get k) found := by
  simp only [Calls.handleGetCmd, isCmdValid]
  by_cases hk : k = []
  · subst hk
    trivial
  · rw [createKeyNode_of_ne hk]
    refine ⟨rfl, fun p => ?_⟩
    cases p with
    | none => trivial
    | some p =>
      refine ⟨rfl, fun kvp => ?_⟩
      dsimp only
      split
      · exact ⟨k, rfl, hk, rfl, rfl⟩
      · refine ⟨rfl, fun kvp => ?_⟩
        obtain ⟨key, value, dtype⟩ := kvp
        cases dtype with
        | bulkStr => exact ⟨rfl, fun _ => trivial⟩
        | _ => trivial

/-- The calls of a command are about its key. -/
theorem fits_calls (lc : Libc) (job : Job) : (job.2.calls lc job.1).Fits job found := by
  obtain ⟨now, cmd⟩ := job
  cases cmd with
  | get k => exact fits_handleGetCmd lc now k
  | set c => exact fits_handleSetCmd now c

end Fits

/-! ## A command in progress -/

/-- The command in progress is as good as one that starts now: run without interruption from here,
on a store that agrees with `m` on what the command has looked up, its steps read no freed nodes and
do what the whole command does. -/
structure RunInv (lc : Libc) (m : Shared) (run : Running) : Prop where
  fits : run.calls.Fits run.job run.found
  agree : ∀ m', SharedInv m' →
    (run.found.isSome = true → entryAt m'.map run.job.2.key = entryAt m.map run.job.2.key) →
    run.calls.run m' = some (run.job.2.exec lc run.job.1 m'.store)
  found : ∀ p, run.found = some p →
    run.calls.isSet = true ∨ (entryAt m.map run.job.2.key).map (fun e => e.value.addr) = p ∨
      (run.calls.isRemove = true ∧ entryAt m.map run.job.2.key = none)

section Run

variable {lc : Libc} {m m' : Shared} {run : Running}

theorem runInv_start (lc : Libc) (m : Shared) (job : Job) :
    RunInv lc m ⟨job, job.2.calls lc job.1, none⟩ where
  fits := fits_calls lc job
  agree _ hm _ := job.2.run_calls lc job.1 hm
  found _ h := by cases h

/-- The next step does not read freed nodes. -/
theorem RunInv.step (h : RunInv lc m run) (hm : SharedInv m) :
    ∃ calls m' trash, run.calls.step m = some (calls, m', trash) :=
  Calls.step_of_run (h.agree m hm fun _ => rfl)

/-- The next step of a command, and then the rest: the same as the whole command now. -/
theorem RunInv.run_next (h : RunInv lc m run) (hm : SharedInv m) {calls : Calls} {trash : Ptr}
    (hs : run.calls.step m = some (calls, m', trash)) :
    calls.run m' = some (run.job.2.exec lc run.job.1 m.store) := by
  rw [← h.agree m hm (fun _ => rfl)]
  exact Calls.run_step hs

/-- A step that does not write: the store is as before, and the command goes on. -/
theorem RunInv.next_of_read (h : RunInv lc m run) (hm : SharedInv m)
    (hw : run.calls.writes = none) {calls : Calls} {trash : Ptr}
    (hs : run.calls.step m = some (calls, m', trash)) :
    m' = m ∧ trash = none ∧ RunInv lc m (run.next m calls) := by
  obtain ⟨job, calls', found⟩ := run
  cases calls' with
  | reply r =>
    cases hs
    exact ⟨rfl, rfl, h⟩
  | check next =>
    cases hs
    refine ⟨rfl, rfl, h.fits _, fun m'' hm'' hf => ?_, fun p hp => ?_⟩
    · refine Eq.trans ?_ (h.agree m'' hm'' hf)
      simp only [Running.next, Calls.run, hm.store.check, hm''.store.check]
    · rcases h.found p hp with hset | he | ⟨hrem, -⟩
      · cases hset
      · exact .inr (.inl he)
      · cases hrem
  | get key next =>
    cases hs
    have hkey : key.content = job.2.key := h.fits.1
    refine ⟨rfl, rfl, h.fits.2 _, fun m'' hm'' hf => ?_, fun p hp => ?_⟩
    · have hsame : entryAt m''.map job.2.key = entryAt m.map job.2.key := hf rfl
      have hget : m''.get key = m.get key := by
        rw [Shared.get_eq, Shared.get_eq, hkey, hsame]
      refine Eq.trans ?_ (h.agree m'' hm'' fun _ => hsame)
      simp only [Running.next, Calls.run, hget]
    · cases hp
      rw [Shared.get_eq, hkey]
      exact .inr (.inl rfl)
  | read p next =>
    obtain ⟨kvp, hl, heq⟩ := Option.map_eq_some_iff.mp hs
    cases heq
    have hfound : found = some (some p) := h.fits.1
    -- The nodes at `p` are those of the entry, so they are the same in each store that has it.
    obtain ⟨e, he, hp⟩ : ∃ e, entryAt m.map job.2.key = some e ∧ e.value.addr = p := by
      rcases h.found (some p) hfound with hset | he | ⟨hrem, -⟩
      · cases hset
      · exact Option.map_eq_some_iff.mp he
      · cases hrem
    refine ⟨rfl, rfl, h.fits.2 _, fun m'' hm'' hf => ?_, fun q hq => .inr (.inl ?_)⟩
    · have hsame : entryAt m''.map job.2.key = entryAt m.map job.2.key := hf (by rw [hfound]; rfl)
      have hl' : m''.nodes.load p = some kvp := by
        have hm₁ := hm.live _ e he
        have hm₂ := hm''.live _ e (hsame.trans he)
        rw [hp] at hm₁ hm₂
        rw [hm₂, ← hm₁, hl]
      refine Eq.trans ?_ (h.agree m'' hm'' fun _ => hsame)
      simp only [Running.next, Calls.run, hl']
    · have hq : found = some q := hq
      cases hfound.symm.trans hq
      exact (congrArg _ he).trans (congrArg some hp)
  | set kvp r cleanUp => cases hw
  | removeKey key r => cases hw

/-- A step by another worker that leaves the entry, or one before the command has looked it up. -/
theorem RunInv.of_entry (h : RunInv lc m run)
    (he : run.found.isSome = true → entryAt m'.map run.job.2.key = entryAt m.map run.job.2.key) :
    RunInv lc m' run where
  fits := h.fits
  agree m'' hm hf := h.agree m'' hm fun hs => (hf hs).trans (he hs)
  found p hp := by
    rw [he (by rw [hp]; rfl)]
    exact h.found p hp

/-- GET of an absent key. -/
theorem exec_get_absent {sm : Store} (now : Timespec) {k : Bytes} (hk : k ≠ [])
    (he : entryAt sm k = none) : (Command.get k).exec lc now sm = (some nil, sm) := by
  simp only [Command.exec, handleGetCmd, isCmdValid, createKeyNode_of_ne hk, get_eq_entryAt, he]

theorem Shared.entryAt_store_none (he : entryAt m.map run.job.2.key = none) :
    entryAt m.store run.job.2.key = none := by
  rw [m.entryAt_store, he]
  rfl

/-- GET removes nothing when the key is gone already, as if it started now. -/
theorem RunInv.of_removed (h : RunInv lc m run) (hs : run.found.isSome = true)
    (hr : run.calls.isRemove = true) (he : entryAt m'.map run.job.2.key = none) :
    RunInv lc m' run where
  fits := h.fits
  agree m'' hm hf := by
    have hnone := Shared.entryAt_store_none ((hf hs).trans he)
    obtain ⟨⟨now, cmd⟩, calls, found⟩ := run
    cases calls with
    | removeKey key r =>
      obtain ⟨k, hjob, hk, hkey, hreply⟩ := h.fits
      simp only at hjob hkey hreply
      subst hjob hkey hreply
      obtain ⟨state, sm₁, hrm, -, -, -, habsent⟩ := hm.store.removeKey ⟨k, now, 0, 0⟩
      obtain ⟨rfl, rfl⟩ := habsent hnone
      rw [exec_get_absent now hk hnone]
      simp only [Calls.run, hrm]
      rfl
    | reply r => cases hr
    | check next => cases hr
    | get key next => cases hr
    | read p next => cases hr
    | set kvp r cleanUp => cases hr
  found p _ := .inr (.inr ⟨hr, he⟩)

/-- `set` of a present key. -/
theorem StoreInv.set_present {sm : Store} (hi : StoreInv sm) (kvp : KeyValuePair KeyNode ValueNode)
    (he : (entryAt sm kvp.key.content).isSome = true) :
    ∃ sm' old, sm.set .ok kvp compare = (.sucessUpgrade, sm', old) := by
  obtain ⟨rtn, sm', old, hset, -, -, ⟨-, hn, -⟩ | ⟨rfl, -, -⟩ | ⟨-, hn, -⟩⟩ := hi.set kvp
  · rw [hn] at he
    cases he
  · exact ⟨sm', old, hset⟩
  · rw [hn] at he
    cases he

/-- XX of a present key. -/
theorem exec_xx_present {sm : Store} (hi : StoreInv sm) (now : Timespec) {c : SetCommand}
    (hk : c.key ≠ []) (hv : c.value ≠ []) (ht : c.time = none) (hx : (Command.set c).PlainXx)
    (he : (entryAt sm c.key).isSome = true) :
    (Command.set c).exec lc now sm =
      (some ok, (sm.set .ok (newPair c now) compare).2.1) := by
  obtain ⟨sm', old, hset⟩ := hi.set_present (newPair c now) he
  obtain ⟨found, hfound⟩ := Option.isSome_iff_exists.mp he
  obtain ⟨c', w, hc', hw, hxx, hg⟩ := hx
  cases hc'
  have hc : c.parsedCmd.content 3 = some w.1 := by
    rw [ParsedCmd.content, SetCommand.parsedCmd_nxxx, hw]
    rfl
  have hnx : cstr w.1 ≠ ascii "NX" := by
    intro h
    rw [getOptionType_nx.mpr h] at hxx
    cases hxx
  have hget : sm.get (newPair c now).key compare = some found := (get_eq_entryAt sm _).trans hfound
  rw [Command.exec, handleSetCmd_args, executeSetCmd_eq now .ok hk hv, hw, hg, ht]
  simp only [executeSetNxXx, hi.check, hc, if_neg hnx, if_pos (getOptionType_xx.mp hxx), hget, hset]
  rfl

/-- XX sets a key that has been set by another command, as if it started now. -/
theorem RunInv.of_set (h : RunInv lc m run) (hs : run.found.isSome = true)
    (hc : run.calls.isSet = true) (hx : run.job.2.PlainXx)
    (he : (entryAt m'.map run.job.2.key).isSome = true) : RunInv lc m' run where
  fits := h.fits
  agree m'' hm hf := by
    rw [← hf hs, ← Option.isSome_map (f := KeyValuePair.mapValue Located.node), ← m''.entryAt_store] at he
    obtain ⟨⟨now, cmd⟩, calls, found⟩ := run
    cases calls with
    | set kvp r cleanUp =>
      obtain ⟨c, hjob, hk, hv, ht, hkvp, hreply⟩ := h.fits.2 hx
      simp only at hjob hkvp hreply
      subst hjob hkvp hreply
      obtain ⟨sm₁, old, hset⟩ := hm.store.set_present (newPair c now) he
      rw [exec_xx_present hm.store now hk hv ht hx he]
      simp only [Calls.run, hset]
      rfl
    | reply r => cases hc
    | check next => cases hc
    | get key next => cases hc
    | read p next => cases hc
    | removeKey key r => cases hc
  found p _ := .inl hc

/-- A call that writes is the last one. -/
theorem reply_of_writes {calls calls' : Calls} {k : Bytes} (hw : calls.writes = some k)
    {trash : Ptr} (hs : calls.step m = some (calls', m', trash)) : ∃ r, calls' = .reply r := by
  cases calls with
  | set kvp r cleanUp =>
    cases hs
    exact ⟨_, rfl⟩
  | removeKey key r =>
    cases hs
    exact ⟨_, rfl⟩
  | reply r => cases hw
  | check next => cases hw
  | get key next => cases hw
  | read p next => cases hw

/-- A write keeps the other keys' entries; after a removal the key is absent, and after a `set` it is
present or as it was. -/
theorem SharedInv.step_of_writes (hm : SharedInv m) {calls calls' : Calls} {k : Bytes} {trash : Ptr}
    (hw : calls.writes = some k) (hs : calls.step m = some (calls', m', trash)) :
    (∀ k' ≠ k, entryAt m'.map k' = entryAt m.map k') ∧
      (calls.isRemove = true → entryAt m'.map k = none) ∧
      (calls.isSet = true →
        (entryAt m'.map k).isSome = true ∨ entryAt m'.map k = entryAt m.map k) := by
  cases calls with
  | set kvp r cleanUp =>
    obtain rfl : kvp.key.content = k := Option.some.inj hw
    obtain ⟨rtn, m₁, old, hset, -, -, -, hother, hown⟩ := hm.set kvp
    rw [Calls.step, hset] at hs
    cases hs
    refine ⟨hother, fun h => absurd h Bool.false_ne_true, fun _ => hown.imp_right fun hmap => ?_⟩
    rw [hmap]
  | removeKey key r =>
    obtain rfl : key.content = k := Option.some.inj hw
    obtain ⟨state, m₁, hrm, -, -, -, hother, hown⟩ := hm.removeKey key
    rw [Calls.step, hrm] at hs
    cases hs
    exact ⟨hother, fun _ => hown, fun h => absurd h Bool.false_ne_true⟩
  | reply r => cases hw
  | check next => cases hw
  | get key next => cases hw
  | read p next => cases hw

/-- A write that does not disturb the command. -/
theorem RunInv.of_write (h : RunInv lc m run) (hm : SharedInv m) {calls calls' : Calls} {k : Bytes}
    {trash : Ptr} (hw : calls.writes = some k) (hs : calls.step m = some (calls', m', trash))
    (hu : run.found.isSome = true → k = run.job.2.key → Harmless calls run) : RunInv lc m' run := by
  obtain ⟨hother, hrem, hset⟩ := hm.step_of_writes hw hs
  by_cases hk : k = run.job.2.key
  · subst hk
    by_cases hf : run.found.isSome = true
    · rcases hu hf rfl with ⟨hc, hr⟩ | ⟨hc, hr, hx⟩
      · exact h.of_removed hf hr (hrem hc)
      · rcases hset hc with he | he
        · exact h.of_set hf hr hx he
        · exact h.of_entry fun _ => he
    · exact h.of_entry fun hf' => absurd hf' hf
  · exact h.of_entry fun _ => hother _ (Ne.symm hk)

end Run

end RedisImpl
