import RedisImpl.Cmd.Expiry
import RedisImpl.Cmd.Run

/-!
# Expiry, over runs

The server drops an expired entry only when a GET finds it. `RefMap.eagerSteps` is the run of a server
that drops every expired entry before each command. `run_eager_iff`: the clients see the same replies
if and only if no SET with NX, XX or GET ever finds an expired entry (`AsksOnlyLive`).
-/

namespace RedisImpl

theorem Timespec.NotAfter.trans {s t u : Timespec} (h : s.NotAfter t) (h' : t.NotAfter u) :
    s.NotAfter u := by
  unfold Timespec.NotAfter at *
  omega

namespace RefMap

/-- The run on the reference map, with all expired entries dropped before each command. -/
def eagerSteps (lc : Libc) : List (Timespec × Command) → RefMap → List (Option Bytes) × RefMap
  | [], m => ([], m)
  | (now, cmd) :: cmds, m =>
    let (reply, m) := step lc now cmd (m.live lc now)
    let (replies, m) := eagerSteps lc cmds m
    (reply :: replies, m)

/-- The command asks for a key that has expired. -/
def AsksExpired (lc : Libc) (now : Timespec) (cmd : Command) (m : RefMap) : Prop :=
  (m cmd.key).any (·.expired lc now) = true ∧ cmd.Valid ∧ AsksFor cmd cmd.key

/-- No command of the run asks for a key that has expired. -/
def AsksOnlyLive (lc : Libc) : List (Timespec × Command) → RefMap → Prop
  | [], _ => True
  | (now, cmd) :: cmds, m =>
    ¬ AsksExpired lc now cmd m ∧ AsksOnlyLive lc cmds (m.step lc now cmd).2

section Step

variable {lc : Libc} {now : Timespec} {m m' : RefMap} {cmd : Command}

/-- A command depends on the entry of its own key only. -/
theorem step_congr (h : SameLive lc now m m') (hkey : m cmd.key = m' cmd.key) :
    (m.step lc now cmd).1 = (m'.step lc now cmd).1 ∧
      SameLive lc now (m.step lc now cmd).2 (m'.step lc now cmd).2 := by
  rw [step.eq_def, step.eq_def]
  by_cases hv : cmd.Valid
  · rw [if_neg (not_not_intro hv), if_neg (not_not_intro hv)]
    cases cmd with
    | get k =>
      have hk : m k = m' k := hkey
      refine ⟨by simp only [live, hk], ?_⟩
      simp only [hk]
      split
      · exact h.update k none
      · exact h
    | set c =>
      have hk : m c.key = m' c.key := hkey
      refine ⟨by simp only [set, hk], ?_⟩
      simp only [set, hk]
      split
      · exact h.update c.key _
      · exact h
  · rw [if_pos hv, if_pos hv]
    exact ⟨rfl, h⟩

/-- Nothing changes from now on if all expired entries are dropped. -/
theorem sameLive_live (lc : Libc) (hn : now.Clock) (m : RefMap) : SameLive lc now m (m.live lc now) := by
  intro k t ht hle
  unfold live
  cases m k with
  | none => rfl
  | some e =>
    cases he : e.expired lc now with
    | false => simp [Option.filter_some, he]
    | true => simp [Option.filter_some, he, Entry.expired_mono hn ht hle he]

theorem live_eq_of_expired {k : Bytes} (h : (m k).any (·.expired lc now) = true) :
    m.live lc now k = none := by
  obtain ⟨e, hm, he⟩ := (Option.any_eq_true _ _).mp h
  simp [live, hm, Option.filter_some, he]

theorem live_eq_of_not_expired {k : Bytes} (h : ¬ (m k).any (·.expired lc now) = true) :
    m.live lc now k = m k := by
  unfold live
  cases hm : m k with
  | none => rfl
  | some e =>
    rw [hm] at h
    simpa [Option.filter_some] using h

/-- The command with and without the expired entries. -/
theorem step_live (hn : now.Clock) (h : ¬ AsksExpired lc now cmd m) :
    (m.step lc now cmd).1 = (step lc now cmd (m.live lc now)).1 ∧
      SameLive lc now (m.step lc now cmd).2 (step lc now cmd (m.live lc now)).2 := by
  have hlive := sameLive_live lc hn m
  by_cases hx : (m cmd.key).any (·.expired lc now) = true
  · obtain ⟨e, hm, he⟩ := (Option.any_eq_true _ _).mp hx
    have hask : ¬ (cmd.Valid ∧ AsksFor cmd cmd.key) := fun ha => h ⟨hx, ha⟩
    obtain ⟨hreply, hafter⟩ := step_without hn hm he hask
    have hkey : Function.update m cmd.key none cmd.key = m.live lc now cmd.key := by
      rw [Function.update_self, live_eq_of_expired hx]
    obtain ⟨hreply', hafter'⟩ := step_congr ((sameLive_remove hn hm he).symm.trans hlive) hkey
    exact ⟨hreply.trans hreply', hafter.trans hafter'⟩
  · exact step_congr hlive (live_eq_of_not_expired hx).symm

/-- A command that asks for an expired key replies otherwise without the expired entries. -/
theorem step_live_ne (hn : now.Clock) (h : AsksExpired lc now cmd m) :
    (m.step lc now cmd).1 ≠ (step lc now cmd (m.live lc now)).1 := by
  obtain ⟨hx, hv, ha⟩ := h
  obtain ⟨e, hm, he⟩ := (Option.any_eq_true _ _).mp hx
  have hkey : Function.update m cmd.key none cmd.key = m.live lc now cmd.key := by
    rw [Function.update_self, live_eq_of_expired hx]
  have hlive := sameLive_live lc hn m
  rw [← (step_congr ((sameLive_remove hn hm he).symm.trans hlive) hkey).1]
  exact step_without_ne hm hv ha

end Step

/-- A run, next to one without the expired entries. -/
theorem steps_eager_iff {lc : Libc} (cmds : List (Timespec × Command)) {m m' : RefMap}
    (hclock : ∀ c ∈ cmds, c.1.Clock) (hsorted : cmds.Pairwise fun c d => c.1.NotAfter d.1)
    (h : ∀ c ∈ cmds, SameLive lc c.1 m m') :
    (m.steps lc cmds).1 = (m'.eagerSteps lc cmds).1 ↔ AsksOnlyLive lc cmds m := by
  induction cmds generalizing m m' with
  | nil => exact iff_of_true rfl trivial
  | cons c cmds ih =>
    obtain ⟨now, cmd⟩ := c
    obtain ⟨hn, hclock⟩ := List.forall_mem_cons.mp hclock
    obtain ⟨hle, hsorted⟩ := List.pairwise_cons.mp hsorted
    obtain ⟨hsame, -⟩ := List.forall_mem_cons.mp h
    -- the two servers see the same live entries, so they drop to the same map
    have hdrop : m'.live lc now = m.live lc now := by
      funext k
      exact (hsame k now hn (.inr ⟨rfl, Int.le_refl _⟩)).symm
    simp only [steps, eagerSteps, AsksOnlyLive, hdrop, List.cons.injEq]
    by_cases hq : AsksExpired lc now cmd m
    · exact iff_of_false (fun hr => step_live_ne hn hq hr.1) fun hr => hr.1 hq
    · obtain ⟨hreply, hafter⟩ := step_live hn hq
      have hnext : ∀ c ∈ cmds, SameLive lc c.1 (m.step lc now cmd).2
          (step lc now cmd (m.live lc now)).2 := by
        intro c hc k t ht hct
        exact hafter k t ht ((hle c hc).trans hct)
      rw [and_iff_right hreply, and_iff_right hq]
      exact ih hclock hsorted hnext

end RefMap

open RefMap

/-- In a run from the empty store, with a clock that does not go back, the replies are those of a
server that drops the expired entries at once, if and only if no command asks for an expired key. -/
theorem run_eager_iff (lc : Libc) (cmds : List (Timespec × Command))
    (hkeys : (keys cmds).dedup.length < 2 ^ 30) (hclock : ∀ c ∈ cmds, c.1.Clock)
    (hsorted : cmds.Pairwise fun c d => c.1.NotAfter d.1) :
    (runStore lc cmds SimpleMap.create).1 = (RefMap.eagerSteps lc cmds fun _ => none).1 ↔
      AsksOnlyLive lc cmds fun _ => none := by
  obtain ⟨sm, -, hrun⟩ := holds_create.steps lc hkeys cmds (fun _ h => absurd rfl h) fun _ h => h
  rw [hrun]
  exact steps_eager_iff cmds hclock hsorted fun _ _ _ _ _ _ => rfl

/-- `SET k v EX 2`, and ten seconds later `SET k w NX`. -/
def lateNx : List (Timespec × Command) :=
  [(⟨0, 0⟩, .set ⟨ascii "k", ascii "v", none, none,
      some (⟨ascii "EX", timeWord_ex⟩, ⟨ascii "2", by decide⟩)⟩),
    (⟨10, 0⟩, .set ⟨ascii "k", ascii "w", some ⟨ascii "NX", condWord_nx⟩, none, none⟩)]

theorem lateNx_not_eager :
    (runStore .exact lateNx SimpleMap.create).1 ≠
      (RefMap.eagerSteps .exact lateNx fun _ => none).1 := by
  refine mt (run_eager_iff .exact lateNx (by decide) ?_ ?_).mp ?_
  · simp [lateNx, Timespec.Clock]
  · simp [lateNx, Timespec.NotAfter]
  · rintro ⟨-, h, -⟩
    refine h ⟨?_, by decide, _, rfl, rfl, .inl rfl⟩
    decide +kernel

end RedisImpl
