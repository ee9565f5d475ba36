import RedisImpl.Cmd.Reference

/-!
# Expired keys

`handle_get_cmd` is the only command that tests whether a key has expired. An expired key is as good
as absent for GET and for the SETs that do not ask whether the key exists; a SET with NX, XX or GET
takes it for present (`observedAbsent_iff`).

* `Entry.expired_mono`: an expired entry stays expired.
* `RefMap.live`: the entry of a key that has not expired; it is what GET answers
  (`Holds.reply_get`).
-/

namespace RedisImpl

/-- An expired entry stays expired. -/
theorem Entry.expired_mono {lc : Libc} {e : Entry} {now t : Timespec} (hn : now.Clock)
    (ht : t.Clock) (hle : now.NotAfter t) (h : e.expired lc now = true) :
    e.expired lc t = true := by
  have hflt := lc.rounding.flt_mono
  have hsec := hflt (lc.rounding.seconds_mono hn ht hle)
  have hdelta := hflt (sub_le_sub_right hsec (lc.rounding.flt (lc.rounding.seconds e.since)))
  have hmilli := hflt (mul_le_mul_of_nonneg_right hdelta (by norm_num : (0 : ℚ) ≤ 1000))
  unfold Entry.expired hasKeyExpired at h ⊢
  simp only at h ⊢
  by_cases h0 : e.ex = 0 ∧ e.px = 0
  · rw [if_pos h0] at h
    cases h
  · rw [if_neg h0] at h ⊢
    by_cases hex : e.ex ≠ 0
    · rw [if_pos hex] at h ⊢
      exact decide_eq_true ((of_decide_eq_true h).trans_le hdelta)
    · rw [if_neg hex] at h ⊢
      exact decide_eq_true ((of_decide_eq_true h).trans_le hmilli)

namespace RefMap

variable {lc : Libc} {now : Timespec} {m m' m'' : RefMap}

/-- From now on the same keys have the same live entries. -/
def SameLive (lc : Libc) (now : Timespec) (m m' : RefMap) : Prop :=
  ∀ k t, t.Clock → now.NotAfter t → m.live lc t k = m'.live lc t k

theorem SameLive.trans (h : SameLive lc now m m') (h' : SameLive lc now m' m'') :
    SameLive lc now m m'' :=
  fun k t ht hle => (h k t ht hle).trans (h' k t ht hle)

theorem SameLive.symm (h : SameLive lc now m m') : SameLive lc now m' m :=
  fun k t ht hle => (h k t ht hle).symm

/-- The same entry for one key. -/
theorem SameLive.update (h : SameLive lc now m m') (k : Bytes) (e : Option Entry) :
    SameLive lc now (Function.update m k e) (Function.update m' k e) := by
  intro k' t ht hle
  have := h k' t ht hle
  by_cases hk : k' = k
  · subst hk
    simp [live]
  · simpa [live, Function.update_of_ne hk] using this

/-- An expired entry removed. -/
theorem sameLive_remove {k : Bytes} {e : Entry} (hn : now.Clock) (hm : m k = some e)
    (he : e.expired lc now = true) : SameLive lc now m (Function.update m k none) := by
  intro k' t ht hle
  by_cases hk : k' = k
  · subst hk
    simp [live, hm, Option.filter_some, Entry.expired_mono hn ht hle he]
  · simp [live, Function.update_of_ne hk]

end RefMap

/-- GET answers the value of the key if it has not expired. -/
theorem Holds.reply_get {sm : Store} {m : RefMap} (h : Holds sm m) (lc : Libc) (now : Timespec)
    (k : Bytes) :
    (handleGetCmd lc now [.bulk k] sm).1 =
      if k = [] then none else some (valueReply (m.live lc now k)) := by
  by_cases hk : k = []
  · rw [if_pos hk, hk]
    rfl
  · obtain ⟨sm', -, -, hx⟩ := h.handleGetCmd_eq lc now hk
    rw [if_neg hk, hx]

/-! ## The observation -/

/-- Both stores give the same answer to every GET from now on. -/
def SameLookups (lc : Libc) (now : Timespec) (sm sm' : Store) : Prop :=
  ∀ k t, t.Clock → now.NotAfter t →
    (handleGetCmd lc t [.bulk k] sm).1 = (handleGetCmd lc t [.bulk k] sm').1

/-- The store without the entry of the key `k`. -/
def without (now : Timespec) (k : Bytes) (sm : Store) : Store :=
  (sm.removeKey ⟨k, now, 0, 0⟩ compare).2.1

/-- The key `k` is observationally absent for the command: its reply, and all later lookups, are
what they are without `k`. -/
def ObservedAbsent (lc : Libc) (now : Timespec) (cmd : Command) (sm : Store) (k : Bytes) : Prop :=
  (cmd.exec lc now sm).1 = (cmd.exec lc now (without now k sm)).1 ∧
    SameLookups lc now (cmd.exec lc now sm).2 (cmd.exec lc now (without now k sm)).2

/-- The command asks whether the key `k` exists: a SET of it with NX, XX or GET. -/
def AsksFor (cmd : Command) (k : Bytes) : Prop :=
  ∃ c, cmd = .set c ∧ c.key = k ∧ (c.nxxx.isSome = true ∨ c.get.isSome = true)

theorem Holds.without {sm : Store} {m : RefMap} (h : Holds sm m) (hr : Room sm) (now : Timespec)
    (k : Bytes) :
    Holds (without now k sm) (Function.update m k none) ∧ Room (without now k sm) := by
  obtain ⟨sm', h', htop, hx⟩ := h.removeKey ⟨k, now, 0, 0⟩
  have : RedisImpl.without now k sm = sm' := by
    rw [RedisImpl.without, hx]
    cases m k with
    | none => rfl
    | some e => rfl
  rw [this]
  refine ⟨h', ?_⟩
  unfold Room at *
  omega

/-- Stores whose maps have the same live entries answer alike. -/
theorem sameLookups_of_sameLive {lc : Libc} {now : Timespec} {sm sm' : Store} {m m' : RefMap}
    (h : Holds sm m) (h' : Holds sm' m') (hlive : m.SameLive lc now m') :
    SameLookups lc now sm sm' := by
  intro k t ht hle
  rw [h.reply_get, h'.reply_get, hlive k t ht hle]

/-- The reply of a SET with NX, XX or GET tells whether the key exists. -/
theorem SetCommand.reply_ne {c : SetCommand} (h : c.nxxx.isSome = true ∨ c.get.isSome = true)
    (e : Entry) : c.reply (some e) ≠ c.reply none := by
  have hbulk (v : Bytes) : bulkString v ≠ nil := by
    obtain ⟨d, ds, hd⟩ := List.exists_cons_of_ne_nil (decimal_ne_nil v.length)
    have hdigit := isDigit_of_mem_decimal (n := v.length) (c := d) (by rw [hd]; simp)
    intro h
    rw [bulkString, hd] at h
    obtain rfl : d = 45 := (List.cons.inj (List.cons.inj h).2).1
    exact absurd hdigit (by decide)
  unfold SetCommand.reply
  by_cases hg : c.get.isSome = true
  · rw [if_pos hg, if_pos hg]
    exact hbulk e.value
  · obtain ⟨w, hw⟩ := Option.isSome_iff_exists.mp (h.resolve_right hg)
    rw [if_neg hg, if_neg hg, acts, acts, hw]
    by_cases hnx : getOptionType w = .nx
    · simp only [if_pos hnx, Option.isNone_some, Option.isNone_none]
      decide
    · simp only [if_neg hnx, Option.isSome_some, Option.isSome_none]
      decide

section

variable {lc : Libc} {now : Timespec} {cmd : Command} {m : RefMap} {k : Bytes} {e : Entry}

/-- A command that does not ask for the expired key `k` does the same without it. -/
theorem step_without (hn : now.Clock) (hm : m k = some e) (he : e.expired lc now = true)
    (ha : ¬ (cmd.Valid ∧ AsksFor cmd k)) :
    (m.step lc now cmd).1 = (RefMap.step lc now cmd (Function.update m k none)).1 ∧
      (m.step lc now cmd).2.SameLive lc now (RefMap.step lc now cmd (Function.update m k none)).2 := by
  have hsame := RefMap.sameLive_remove hn hm he
  unfold RefMap.step
  by_cases hv : cmd.Valid
  · rw [if_neg (not_not_intro hv), if_neg (not_not_intro hv)]
    cases cmd with
    | get k' =>
      -- a GET drops the expired key that it asks for, which no one sees
      have hdrop (m : RefMap) : m.SameLive lc now
          (if (m k').any (·.expired lc now) then Function.update m k' none else m) := by
        cases hk' : m k' with
        | none => exact fun _ _ _ _ => rfl
        | some e' =>
          cases he' : e'.expired lc now with
          | false =>
            simp only [Option.any_some, he']
            exact fun _ _ _ _ => rfl
          | true =>
            simp only [Option.any_some, he']
            exact RefMap.sameLive_remove hn hk' he'
      refine ⟨?_, (hdrop m).symm.trans (hsame.trans (hdrop _))⟩
      simp only [hsame k' now hn (.inr ⟨rfl, Int.le_refl _⟩)]
    | set c =>
      simp only [RefMap.set]
      by_cases hk : c.key = k
      · -- without NX, XX and GET the old entry does not matter
        have hno : ¬ (c.nxxx.isSome = true ∨ c.get.isSome = true) :=
          fun h => ha ⟨hv, c, rfl, hk, h⟩
        rw [not_or, Option.not_isSome_iff_eq_none, Option.not_isSome_iff_eq_none] at hno
        have hacts (old : Option Entry) : c.acts old = true := by rw [SetCommand.acts, hno.1]
        have hreply (old : Option Entry) : c.reply old = ok := by
          rw [SetCommand.reply, hno.2, hacts]
          rfl
        simp only [hacts, hreply, if_true, true_and]
        exact hsame.update c.key _
      · rw [Function.update_of_ne hk]
        refine ⟨rfl, ?_⟩
        split
        · exact hsame.update c.key _
        · exact hsame
  · rw [if_pos hv, if_pos hv]
    exact ⟨rfl, hsame⟩

/-- A command that asks for the expired key `k` replies otherwise without it. -/
theorem step_without_ne (hm : m k = some e) (hv : cmd.Valid) (ha : AsksFor cmd k) :
    (m.step lc now cmd).1 ≠ (RefMap.step lc now cmd (Function.update m k none)).1 := by
  obtain ⟨c, rfl, rfl, hc⟩ := ha
  unfold RefMap.step
  rw [if_neg (not_not_intro hv), if_neg (not_not_intro hv)]
  simp only [RefMap.set, hm, Function.update_self, ne_eq, Option.some.injEq]
  exact SetCommand.reply_ne hc e

/-- An expired key is observationally absent exactly for the commands that do not ask for it. -/
theorem observedAbsent_iff {sm : Store} (h : Holds sm m) (hr : Room sm) (hn : now.Clock)
    (hm : m k = some e) (he : e.expired lc now = true) :
    ObservedAbsent lc now cmd sm k ↔ ¬ (cmd.Valid ∧ AsksFor cmd k) := by
  obtain ⟨h', hr'⟩ := h.without hr now k
  obtain ⟨sm₁, h₁, hx₁⟩ := h.step hr lc now cmd
  obtain ⟨sm₂, h₂, hx₂⟩ := h'.step hr' lc now cmd
  unfold ObservedAbsent
  rw [hx₁, hx₂]
  constructor
  · rintro ⟨hreply, -⟩ ⟨hv, ha⟩
    exact step_without_ne hm hv ha hreply
  · intro ha
    obtain ⟨hreply, hlive⟩ := step_without hn hm he ha
    exact ⟨hreply, sameLookups_of_sameLive h₁ h₂ hlive⟩

end

/-- `SET k v EX 1`. -/
def setEx : SetCommand where
  key := ascii "k"
  value := ascii "v"
  nxxx := none
  get := none
  time := some (⟨ascii "EX", timeWord_ex⟩, ⟨ascii "1", by decide⟩)

/-- `SET k w NX`. -/
def setNx : SetCommand where
  key := ascii "k"
  value := ascii "w"
  nxxx := some ⟨ascii "NX", condWord_nx⟩
  get := none
  time := none

/-- The store after `SET k v EX 1` at time 0. -/
def storeEx : Store := ((Command.set setEx).exec .exact ⟨0, 0⟩ .create).2

/-- What `storeEx` holds. -/
def mapEx : RefMap := Function.update (fun _ => none) (ascii "k") (some (setEx.entry ⟨0, 0⟩))

theorem holds_storeEx : Holds storeEx mapEx := by
  obtain ⟨sm, h, hx⟩ := holds_create.step (by unfold Room; decide) .exact ⟨0, 0⟩ (.set setEx)
  rw [storeEx, hx]
  exact h

/-- Ten seconds after `SET k v EX 1`, `SET k w NX` answers nil, and `+OK` without the expired
entry. -/
theorem setNx_not_observedAbsent :
    Holds storeEx mapEx ∧ Room storeEx ∧ Timespec.Clock ⟨10, 0⟩ ∧
    mapEx (ascii "k") = some (setEx.entry ⟨0, 0⟩) ∧
    (setEx.entry ⟨0, 0⟩).expired .exact ⟨10, 0⟩ = true ∧ (Command.set setNx).Valid ∧
    ((Command.set setNx).exec .exact ⟨10, 0⟩ storeEx).1 = some nil ∧
    ((Command.set setNx).exec .exact ⟨10, 0⟩ (without ⟨10, 0⟩ (ascii "k") storeEx)).1 = some ok ∧
    ¬ ObservedAbsent .exact ⟨10, 0⟩ (.set setNx) storeEx (ascii "k") := by
  have hnil : ((Command.set setNx).exec .exact ⟨10, 0⟩ storeEx).1 = some nil := by decide +kernel
  have hok : ((Command.set setNx).exec .exact ⟨10, 0⟩
      (without ⟨10, 0⟩ (ascii "k") storeEx)).1 = some ok := by decide +kernel
  refine ⟨holds_storeEx, by unfold Room; decide +kernel, by unfold Timespec.Clock; decide,
    Function.update_self .., by decide +kernel, by decide, hnil, hok, ?_⟩
  rintro ⟨hreply, -⟩
  rw [hnil, hok] at hreply
  exact absurd hreply (by decide)

/-- `GET k` ten seconds after `SET k v EX 1`. -/
theorem observedAbsent_iff_get :
    ObservedAbsent .exact ⟨10, 0⟩ (.get (ascii "k")) storeEx (ascii "k") ↔
      ¬ ((Command.get (ascii "k")).Valid ∧ AsksFor (.get (ascii "k")) (ascii "k")) :=
  observedAbsent_iff holds_storeEx (by unfold Room; decide +kernel)
    (by unfold Timespec.Clock; decide) (e := setEx.entry ⟨0, 0⟩) (Function.update_self ..)
    (by decide +kernel)

end RedisImpl
