import RedisImpl.Cmd.Reference

/-!
# Runs of GET and SET

A run executes a list of commands, each at its own clock reading. `run_refines`: the replies of a
run from the empty store are those of the reference map, and the store ends up holding it.
-/

namespace RedisImpl

/-- The replies of the commands and the store after them. -/
def runStore (lc : Libc) : List (Timespec × Command) → Store → List (Option Bytes) × Store
  | [], sm => ([], sm)
  | (now, cmd) :: cmds, sm =>
    let (reply, sm) := cmd.exec lc now sm
    let (replies, sm) := runStore lc cmds sm
    (reply :: replies, sm)

/-- A run with one more command. -/
theorem runStore_concat (lc : Libc) (cmds : List (Timespec × Command)) (now : Timespec)
    (cmd : Command) (sm : Store) :
    runStore lc (cmds ++ [(now, cmd)]) sm =
      ((runStore lc cmds sm).1 ++ [(cmd.exec lc now (runStore lc cmds sm).2).1],
        (cmd.exec lc now (runStore lc cmds sm).2).2) := by
  induction cmds generalizing sm with
  | nil => rfl
  | cons c cmds ih => simp only [List.cons_append, runStore, ih]

/-- The run on the reference map. -/
def RefMap.run : List (Timespec × Command) → RefMap → List Bytes × RefMap
  | [], m => ([], m)
  | (now, cmd) :: cmds, m =>
    let (reply, m) := m.exec now cmd
    let (replies, m) := RefMap.run cmds m
    (reply :: replies, m)

/-- The run on the reference map, as the handlers do it: with keys that expire, and commands that are
refused. -/
def RefMap.steps (lc : Libc) : List (Timespec × Command) → RefMap → List (Option Bytes) × RefMap
  | [], m => ([], m)
  | (now, cmd) :: cmds, m =>
    let (reply, m) := m.step lc now cmd
    let (replies, m) := RefMap.steps lc cmds m
    (reply :: replies, m)

/-- No key that the reference map holds has expired when a command runs. -/
def RefMap.Unexpired (lc : Libc) : List (Timespec × Command) → RefMap → Prop
  | [], _ => True
  | (now, cmd) :: cmds, m =>
    (∀ k e, m k = some e → e.expired lc now = false) ∧
      RefMap.Unexpired lc cmds (m.exec now cmd).2

/-- The keys of the commands. -/
def keys (cmds : List (Timespec × Command)) : List Bytes := cmds.map fun cmd => cmd.2.key

/-- A command adds no key but its own. -/
theorem RefMap.exec_domain {m : RefMap} {now : Timespec} {cmd : Command} {k : Bytes}
    (h : (m.exec now cmd).2 k ≠ none) : m k ≠ none ∨ k = cmd.key := by
  cases cmd with
  | get k' => exact .inl h
  | set c =>
    by_cases hk : k = c.key
    · exact .inr hk
    · left
      simp only [RefMap.exec, RefMap.set] at h
      split at h
      · rwa [Function.update_of_ne hk] at h
      · exact h

/-- A store that holds some of the keys `ks` has at most as many entries. -/
theorem Holds.top_le {sm : Store} {m : RefMap} (h : Holds sm m) {ks : List Bytes}
    (hks : ∀ k, m k ≠ none → k ∈ ks) : sm.top + 1 ≤ ks.dedup.length := by
  obtain ⟨es, hst, hm⟩ := h
  have hsub : es.map (SimpleMap.ident KeyNode.id) ⊆ ks.dedup := by
    intro k hk
    obtain ⟨e, he, rfl⟩ := List.mem_map.mp hk
    rw [List.mem_dedup]
    apply hks
    intro hnone
    have := hm (SimpleMap.ident KeyNode.id e)
    rw [Keyed.lookup_of_mem hst.distinct he, hnone] at this
    cases this
  have hlen := (List.subperm_of_subset hst.distinct hsub).length_le
  rw [List.length_map] at hlen
  have := hst.top
  omega

/-- A command as the handlers do it adds no key but its own either. -/
theorem RefMap.step_domain {lc : Libc} {m : RefMap} {now : Timespec} {cmd : Command} {k : Bytes}
    (h : (m.step lc now cmd).2 k ≠ none) : m k ≠ none ∨ k = cmd.key := by
  rw [step.eq_def] at h
  split at h
  · exact .inl h
  · cases cmd with
    | get k' =>
      left
      dsimp only at h
      split at h
      · by_cases hk : k = k'
        · rw [hk, Function.update_self] at h
          exact absurd rfl h
        · rwa [Function.update_of_ne hk] at h
      · exact h
    | set c =>
      have hx : ((m.exec now (.set c)).2 k) ≠ none := h
      exact RefMap.exec_domain hx

/-- Where all keys are among fewer than `2^30`, there is room for a command. -/
theorem Holds.room {sm : Store} {m : RefMap} (h : Holds sm m) {ks : List Bytes}
    (hks : ks.dedup.length < 2 ^ 30) (hm : ∀ k, m k ≠ none → k ∈ ks) : Room sm := by
  have := h.top_le hm
  unfold Room
  omega

theorem RefMap.step_within {lc : Libc} {m : RefMap} {now : Timespec} {cmd : Command}
    {ks : List Bytes} (hm : ∀ k, m k ≠ none → k ∈ ks) (hcmd : cmd.key ∈ ks) (k : Bytes)
    (hk : (m.step lc now cmd).2 k ≠ none) : k ∈ ks := by
  rcases RefMap.step_domain hk with hk | rfl
  · exact hm k hk
  · exact hcmd

/-- A run on a store that holds `m` is the run on `m` with expiry, as long as at most `2^30 - 1` keys
occur. -/
theorem Holds.steps (lc : Libc) {ks : List Bytes} (hks : ks.dedup.length < 2 ^ 30)
    (cmds : List (Timespec × Command)) {sm : Store} {m : RefMap} (h : Holds sm m)
    (hm : ∀ k, m k ≠ none → k ∈ ks) (hcmds : ∀ k ∈ keys cmds, k ∈ ks) :
    ∃ sm', Holds sm' (m.steps lc cmds).2 ∧ runStore lc cmds sm = ((m.steps lc cmds).1, sm') := by
  induction cmds generalizing sm m with
  | nil => exact ⟨sm, h, rfl⟩
  | cons cmd cmds ih =>
    obtain ⟨now, cmd⟩ := cmd
    obtain ⟨hcmd, hcmds⟩ := List.forall_mem_cons.mp hcmds
    obtain ⟨sm₁, h₁, hx⟩ := h.step (h.room hks hm) lc now cmd
    obtain ⟨sm', h', hrun⟩ := ih h₁ (RefMap.step_within hm hcmd) hcmds
    exact ⟨sm', h', by simp only [runStore, hx, hrun, RefMap.steps]⟩

/-- A run on a store that holds `m` is the run on `m`, as long as at most `2^30 - 1` keys occur. -/
theorem Holds.run (lc : Libc) {ks : List Bytes} (hks : ks.dedup.length < 2 ^ 30)
    (cmds : List (Timespec × Command)) {sm : Store} {m : RefMap} (h : Holds sm m)
    (hm : ∀ k, m k ≠ none → k ∈ ks) (hcmds : ∀ k ∈ keys cmds, k ∈ ks)
    (hv : ∀ cmd ∈ cmds, cmd.2.Valid) (hu : m.Unexpired lc cmds) :
    ∃ sm', Holds sm' (m.run cmds).2 ∧
      runStore lc cmds sm = ((m.run cmds).1.map some, sm') := by
  induction cmds generalizing sm m with
  | nil => exact ⟨sm, h, rfl⟩
  | cons cmd cmds ih =>
    obtain ⟨now, cmd⟩ := cmd
    obtain ⟨hlive, hu⟩ := hu
    have hr : Room sm := by
      have := h.top_le hm
      unfold Room
      omega
    obtain ⟨sm₁, h₁, hx⟩ := h.step hr lc now cmd
    rw [RefMap.step_of_unexpired (hv (now, cmd) (by simp)) (hlive cmd.key)] at h₁ hx
    have hm₁ : ∀ k, (m.exec now cmd).2 k ≠ none → k ∈ ks := by
      intro k hk
      rcases RefMap.exec_domain hk with hk | rfl
      · exact hm k hk
      · exact hcmds cmd.key (by simp [keys])
    obtain ⟨sm', h', hrun⟩ := ih h₁ hm₁ (fun k hk => hcmds k (by simp [keys] at hk ⊢; tauto))
      (fun c hc => hv c (by simp [hc])) hu
    refine ⟨sm', h', ?_⟩
    simp only [runStore, hx, hrun, RefMap.run, List.map_cons]

/-- GET and SET refine the reference map: in every run from the empty store the replies are the
reference map's, and at the end the store holds exactly the reference map's entries. -/
theorem run_refines (lc : Libc) (cmds : List (Timespec × Command))
    (hv : ∀ cmd ∈ cmds, cmd.2.Valid) (hkeys : (keys cmds).dedup.length < 2 ^ 30)
    (hu : RefMap.Unexpired lc cmds fun _ => none) :
    ∃ sm, runStore lc cmds SimpleMap.create =
        ((RefMap.run cmds fun _ => none).1.map some, sm) ∧
      Holds sm (RefMap.run cmds fun _ => none).2 := by
  obtain ⟨sm, h, hrun⟩ := holds_create.run lc hkeys cmds (fun _ h => absurd rfl h) (fun _ h => h) hv
    hu
  exact ⟨sm, hrun, h⟩

/-- `SET k v EX 60`, one second before `GET k`. -/
def setThenGet : List (Timespec × Command) :=
  [(⟨0, 0⟩, .set ⟨ascii "k", ascii "v", none, none,
      some (⟨ascii "EX", timeWord_ex⟩, ⟨ascii "60", by decide⟩)⟩),
    (⟨1, 0⟩, .get (ascii "k"))]

theorem setThenGet_refines :
    ∃ sm, runStore .exact setThenGet SimpleMap.create =
        ((RefMap.run setThenGet fun _ => none).1.map some, sm) ∧
      Holds sm (RefMap.run setThenGet fun _ => none).2 := by
  refine run_refines .exact setThenGet ?_ (by decide) ⟨nofun, ?_, trivial⟩
  · intro cmd hcmd
    rcases List.mem_cons.mp hcmd with rfl | hcmd
    · exact ⟨by decide, by decide, fun _ => ⟨rfl, rfl⟩⟩
    · obtain rfl := List.mem_singleton.mp hcmd
      show ascii "k" ≠ []
      decide
  · intro k e h
    by_cases hk : k = ascii "k"
    · subst hk
      obtain rfl := Option.some.inj h
      decide +kernel
    · simp [RefMap.exec, RefMap.set, SetCommand.acts, Function.update_of_ne hk] at h

end RedisImpl
