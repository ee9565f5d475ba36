import RedisImpl.Cmd.SetGrammar
import RedisImpl.Store.Failure

/-!
# Lifetimes

What `SET key value OPT n` records, for an expiry option OPT, and when the key is gone.

* `lifetimeExact_iff`: the number that is recorded is the one that was sent exactly if it is below
  `2^32`.
* `followsOption_iff`: EX and PX end the key's life when they say; for EXAT and PXAT, which are taken
  for a time from the SET on, GET answers as they say unless it comes after the deadline and
  within that time.
-/

namespace RedisImpl

open SimpleMap

/-- `SET key value OPT ds`. -/
def timedSet (k v : Bytes) (w : TimeWord) (ds : Digits) : SetCommand := ⟨k, v, none, none, some (w, ds)⟩

section Recorded

variable {now : Timespec} {ra : Realloc} {sm sm' : Store} {es : List (KeyNode × ValueNode)}
  {k v : Bytes} {w : TimeWord} {ds : Digits}

theorem timedSet_supported : (timedSet k v w ds).Supported := fun _ => ⟨rfl, rfl⟩

theorem executeSetExPxExatPxat_timedSet (now : Timespec) (ra : Realloc) (sm : Store) :
    executeSetExPxExatPxat ra sm (newPair (timedSet k v w ds) now) (timedSet k v w ds).parsedCmd =
      if executeSetCheck sm = true then
        executeSetBasic ra sm ⟨(((timedSet k v w ds).entry now).nodes k).1,
          (((timedSet k v w ds).entry now).nodes k).2⟩
      else (none, sm) := by
  unfold executeSetExPxExatPxat
  cases hc : executeSetCheck sm with
  | false => rfl
  | true =>
    simp only [ParsedCmd.content, SetCommand.parsedCmd_timeWord, SetCommand.parsedCmd_timeDigits,
      timedSet, Option.map_some, Option.bind_some, Node.bulkContent_bulk, stringToUint_time,
      SetCommand.entry, Bool.not_true, Bool.false_eq_true, if_false, if_true]
    rcases OptionType.isTime_iff.mp w.2 with hg | hg | hg | hg <;> simp only [hg] <;> rfl

/-- `+OK` is answered only if `set` succeeds. -/
theorem executeSetBasic_ok {kvp : KeyValuePair KeyNode ValueNode}
    (hr : executeSetBasic ra sm kvp = (some ok, sm')) :
    sm.set ra kvp compare = sm.set .ok kvp compare ∧ (sm.set .ok kvp compare).2.1 = sm' := by
  rw [executeSetBasic_eq] at hr
  split at hr
  · have hok : (sm.set ra kvp compare).1 ≠ .errorSetSmRtn := by
      intro he
      rw [if_pos he] at hr
      exact absurd (Option.some.inj (congrArg Prod.fst hr)) (by decide)
    have hset := set_ok hok
    exact ⟨hset, hset ▸ congrArg Prod.snd hr⟩
  · cases hr

/-- What the store holds after a `set` that was answered with `+OK`. -/
theorem executeSetBasic_stored (h : Stores KeyNode.id sm es) (hc : sm.capacity < 2 ^ 31) {k : Bytes}
    {e : Entry} (hr : executeSetBasic ra sm ⟨(e.nodes k).1, (e.nodes k).2⟩ = (some ok, sm')) :
    ∃ es', Stores KeyNode.id sm' es' ∧
      Keyed.lookup (ident KeyNode.id) es' k = some (e.nodes k) := by
  obtain ⟨hset, hsm⟩ := executeSetBasic_ok hr
  rcases h.set_cases hc ⟨(e.nodes k).1, (e.nodes k).2⟩ with ⟨sm₁, hst, -, hres⟩ | ⟨-, -, hres⟩
  · have hsm₁ : sm₁ = sm' := by
      rw [← hsm, compare_eq_cmpBy, hres]
      split <;> rfl
    exact ⟨_, hsm₁ ▸ hst, (Keyed.lookup_put h.distinct _ k).trans (if_pos rfl)⟩
  · rw [compare_eq_cmpBy] at hset
    rw [executeSetBasic, compare_eq_cmpBy, hset, hres] at hr
    split at hr
    · cases hr
    · exact absurd (Option.some.inj (congrArg Prod.fst hr)) (by decide)

/-- What the store holds after a SET with an expiry option that was answered with `+OK`. -/
theorem handleSetCmd_timedSet (h : Stores KeyNode.id sm es) (hc : sm.capacity < 2 ^ 31)
    (hr : handleSetCmd now ra (timedSet k v w ds).args sm = (some ok, sm')) :
    k ≠ [] ∧ ∃ es', Stores KeyNode.id sm' es' ∧
      Keyed.lookup (ident KeyNode.id) es' k = some (((timedSet k v w ds).entry now).nodes k) := by
  by_cases he : (timedSet k v w ds).key = [] ∨ (timedSet k v w ds).value = []
  · rw [handleSetCmd_empty now ra he] at hr
    cases hr
  rw [not_or] at he
  refine ⟨he.1, ?_⟩
  rw [handleSetCmd_args, executeSetCmd_eq now ra he.1 he.2] at hr
  have hrun : executeSetExPxExatPxat ra sm (newPair (timedSet k v w ds) now)
      (timedSet k v w ds).parsedCmd = (some ok, sm') := hr
  rw [executeSetExPxExatPxat_timedSet] at hrun
  split at hrun
  · exact executeSetBasic_stored h hc hrun
  · cases hrun

end Recorded

/-! ## The number -/

/-- The number that a key records for an expiry option. -/
def recorded (w : TimeWord) (key : KeyNode) : BitVec 32 :=
  match getOptionType w with
  | .ex | .exat => key.ex
  | _ => key.px

theorem recorded_entry (k v : Bytes) (w : TimeWord) (ds : Digits) (now : Timespec) :
    recorded w (((timedSet k v w ds).entry now).nodes k).1 = timeLimit ds := by
  unfold recorded
  simp only [SetCommand.entry, timedSet]
  rcases OptionType.isTime_iff.mp w.2 with hg | hg | hg | hg <;> simp only [hg] <;> rfl

/-- A SET that is answered with `+OK`, in any store and whatever the allocations do, records the
number that was sent. -/
def LifetimeExact (k v : Bytes) (w : TimeWord) (ds : Digits) : Prop :=
  ∀ now ra (sm sm' : Store) es, Stores KeyNode.id sm es → sm.capacity < 2 ^ 31 →
    handleSetCmd now ra (timedSet k v w ds).args sm = (some ok, sm') →
    ∃ kvp, sm'.get ⟨k, now, 0, 0⟩ compare = some kvp ∧ (recorded w kvp.key).toNat = value ds

/-- The number that is recorded is the one that was sent if and only if it is below `2^32`, or the
command is refused in every state because its key or value is empty. -/
theorem lifetimeExact_iff (k v : Bytes) (w : TimeWord) (ds : Digits) :
    LifetimeExact k v w ds ↔ k = [] ∨ v = [] ∨ value ds < 2 ^ 32 := by
  constructor
  · intro hx
    by_contra hn
    rw [not_or, not_or] at hn
    obtain ⟨hk, hv, hlarge⟩ := hn
    obtain ⟨sm', -, hrun⟩ := holds_create.handleSetCmd_supported (by unfold Room; decide) ⟨0, 0⟩
      timedSet_supported hk hv (c := timedSet k v w ds)
    have hrun' : handleSetCmd ⟨0, 0⟩ .ok (timedSet k v w ds).args .create = (some ok, sm') := hrun
    obtain ⟨kvp, hget, hrec⟩ := hx ⟨0, 0⟩ .ok .create sm' [] stores_create (by decide) hrun'
    obtain ⟨-, es', hst, hlook⟩ := handleSetCmd_timedSet stores_create (by decide) hrun'
    rw [compare_eq_cmpBy, hst.get_eq, hlook] at hget
    obtain rfl := Option.some.inj hget
    rw [recorded_entry, timeLimit, BitVec.toNat_ofNat] at hrec
    omega
  · intro hv now ra sm sm' es h hc hrun
    obtain ⟨hk, es', hst, hlook⟩ := handleSetCmd_timedSet h hc hrun
    refine ⟨⟨_, _⟩, by rw [compare_eq_cmpBy, hst.get_eq, hlook]; rfl, ?_⟩
    rw [recorded_entry]
    apply toNat_timeLimit
    rcases hv with rfl | rfl | hv
    · exact absurd rfl hk
    · rw [handleSetCmd_empty now ra (.inr rfl)] at hrun
      cases hrun
    · exact hv

/-- `SET k v EX 4294967296` records 0, which is no limit. -/
theorem twoPow_not_lifetimeExact :
    ¬ LifetimeExact (ascii "k") (ascii "v") ⟨ascii "EX", by decide⟩
      ⟨ascii "4294967296", by decide⟩ := by
  intro hx
  obtain ⟨kvp, hget, hrec⟩ := hx ⟨0, 0⟩ .ok .create
    ⟨some [some ⟨ascii "k", ⟨0, 0⟩, 0, 0⟩], some [some ⟨ascii "v", .bulkStr⟩], 1, 0⟩ []
    stores_create (by decide) (by decide)
  cases hget
  revert hrec
  decide

/-! ## The deadline -/

/-- The time of a clock reading in seconds. -/
def Timespec.secs (ts : Timespec) : ℚ := ts.tvSec + ts.tvNsec / 1000000000

/-- The unit of an option, in seconds. -/
def unit (w : TimeWord) : ℚ :=
  match getOptionType w with
  | .ex | .exat => 1
  | _ => 1 / 1000

/-- The option says how long the key lives, not until when. -/
def IsRelative (w : TimeWord) : Prop := getOptionType w = .ex ∨ getOptionType w = .px

instance (w : TimeWord) : Decidable (IsRelative w) :=
  inferInstanceAs (Decidable (getOptionType w = .ex ∨ getOptionType w = .px))

/-- The deadline of `SET key value OPT n` at `t0`, on the monotonic clock; the unix time is ahead of
that clock by `offset`. -/
def deadline (w : TimeWord) (n : Nat) (t0 : Timespec) (offset : ℚ) : ℚ :=
  if IsRelative w then t0.secs + n * unit w else n * unit w - offset

/-- After `SET key value OPT ds` at `t0`, in any store, the next GET at `t1` answers nil if and only
if the deadline has passed. -/
def FollowsOption (lc : Libc) (k v : Bytes) (w : TimeWord) (ds : Digits) (t0 t1 : Timespec)
    (offset : ℚ) : Prop :=
  ∀ ra (sm sm' : Store) es, Stores KeyNode.id sm es → sm.capacity < 2 ^ 31 →
    handleSetCmd t0 ra (timedSet k v w ds).args sm = (some ok, sm') →
    ((handleGetCmd lc t1 [.bulk k] sm').1 = some nil ↔ deadline w (value ds) t0 offset < t1.secs)

section Deadline

variable {lc : Libc} {k v : Bytes} {w : TimeWord} {ds : Digits} {t0 t1 : Timespec} {offset : ℚ}

theorem bulkString_ne_nil (v : Bytes) : bulkString v ≠ nil := by
  intro h
  have hd : ∃ c t, decimal v.length = c :: t ∧ isDigit c = true := by
    cases hdec : decimal v.length with
    | nil => exact absurd hdec (decimal_ne_nil _)
    | cons c t => exact ⟨c, t, rfl, isDigit_of_mem_decimal (by rw [hdec]; exact List.mem_cons_self)⟩
  obtain ⟨c, t, hdec, hc⟩ := hd
  rw [bulkString, hdec] at h
  have h1 : c = 45 := (List.cons.inj (List.cons.inj h).2).1
  subst h1
  cases hc

/-- With exact arithmetic, the test at GET compares the age of the key with the number sent. -/
theorem expired_timedSet (hx : lc.rounding = .exact) (h0 : 0 < value ds) (h1 : value ds < 2 ^ 32) :
    ((timedSet k v w ds).entry t0).expired lc t1 = true ↔
      t0.secs + value ds * unit w < t1.secs := by
  have hn := toNat_timeLimit h1
  have hne : timeLimit ds ≠ 0 := by
    intro hz
    rw [hz] at hn
    have : (0 : BitVec 32).toNat = 0 := rfl
    omega
  have hs : ∀ ts : Timespec, lc.rounding.flt (lc.rounding.seconds ts) = ts.secs := by
    intro ts
    rw [hx]
    rfl
  have hflt : ∀ q : ℚ, lc.rounding.flt q = q := by
    intro q
    rw [hx]
    rfl
  have hw := w.2
  unfold Entry.expired hasKeyExpired unit
  simp only [SetCommand.entry, timedSet, hs, hflt]
  cases hg : getOptionType w with
  | ex | exat =>
    simp only [hne, false_and, if_false, ne_eq, not_false_eq_true, if_true, hn, decide_eq_true_eq,
      mul_one]
    exact lt_sub_iff_add_lt'
  | px | pxat =>
    simp only [hne, and_false, if_false, ne_eq, not_true_eq_false, hn, decide_eq_true_eq]
    rw [← lt_sub_iff_add_lt', mul_one_div, div_lt_iff₀ (by norm_num)]
  | nx | xx | get | invalid =>
    rw [hg] at hw
    cases hw

/-- What the next GET answers. -/
theorem handleGetCmd_timedSet {ra : Realloc} {sm sm' : Store} {es : List (KeyNode × ValueNode)}
    (h : Stores KeyNode.id sm es) (hc : sm.capacity < 2 ^ 31)
    (hr : handleSetCmd t0 ra (timedSet k v w ds).args sm = (some ok, sm')) :
    (handleGetCmd lc t1 [.bulk k] sm').1 = some nil ↔
      ((timedSet k v w ds).entry t0).expired lc t1 = true := by
  obtain ⟨hk, es', hst, hlook⟩ := handleSetCmd_timedSet h hc hr
  have hget : sm'.get ⟨k, t1, 0, 0⟩ compare = some ⟨(((timedSet k v w ds).entry t0).nodes k).1,
      (((timedSet k v w ds).entry t0).nodes k).2⟩ := by
    rw [compare_eq_cmpBy, hst.get_eq, hlook]
    rfl
  have hexp : hasKeyExpired lc ⟨k, t1, 0, 0⟩ (((timedSet k v w ds).entry t0).nodes k).1 =
      ((timedSet k v w ds).entry t0).expired lc t1 := rfl
  rw [handleGetCmd, isCmdValid]
  simp only [createKeyNode_of_ne hk, hget, hexp]
  cases he : ((timedSet k v w ds).entry t0).expired lc t1 with
  | true =>
    obtain ⟨sm₁, -, -, hrm⟩ := hst.removeKey_eq ⟨k, t1, 0, 0⟩
    have hlook' : Keyed.lookup (ident KeyNode.id) es' (KeyNode.id ⟨k, t1, 0, 0⟩) =
        some (((timedSet k v w ds).entry t0).nodes k) := hlook
    rw [hlook'] at hrm
    rw [if_pos rfl, compare_eq_cmpBy, hrm]
    simp
  | false =>
    rw [if_neg Bool.false_ne_true]
    simp only [Bool.false_eq_true, iff_false]
    intro hn
    exact bulkString_ne_nil _ (Option.some.inj hn)

end Deadline

/-- GET answers as the option says if and only if the option is EX or PX, or GET does not come in
the time after the deadline in which the key is still younger than the number sent (or the SET
is refused in every state). -/
theorem followsOption_iff {lc : Libc} (hx : lc.rounding = .exact) (k v : Bytes) (w : TimeWord)
    {ds : Digits} (h0 : 0 < value ds) (h1 : value ds < 2 ^ 32) {t0 : Timespec} (t1 : Timespec)
    {offset : ℚ} (hoff : 0 ≤ t0.secs + offset) :
    FollowsOption lc k v w ds t0 t1 offset ↔ k = [] ∨ v = [] ∨ IsRelative w ∨
      ¬ (deadline w (value ds) t0 offset < t1.secs ∧ t1.secs ≤ t0.secs + value ds * unit w) := by
  constructor
  · intro hf
    by_contra hn
    rw [not_or, not_or, not_or, not_not] at hn
    obtain ⟨hk, hv, -, hpassed, hyoung⟩ := hn
    obtain ⟨sm', -, hrun⟩ := holds_create.handleSetCmd_supported (by unfold Room; decide) t0
      timedSet_supported hk hv (c := timedSet k v w ds)
    have hrun' : handleSetCmd t0 .ok (timedSet k v w ds).args .create = (some ok, sm') := hrun
    have hnil := (hf .ok .create sm' [] stores_create (by decide) hrun').mpr hpassed
    rw [handleGetCmd_timedSet stores_create (by decide) hrun', expired_timedSet hx h0 h1] at hnil
    exact absurd hnil (not_lt.mpr hyoung)
  · intro hcond ra sm sm' es h hc hrun
    rw [handleGetCmd_timedSet h hc hrun, expired_timedSet hx h0 h1]
    by_cases hrel : IsRelative w
    · rw [deadline, if_pos hrel]
    · obtain ⟨hk, -⟩ := handleSetCmd_timedSet h hc hrun
      have hv : v ≠ [] := by
        rintro rfl
        rw [handleSetCmd_empty t0 ra (.inr rfl)] at hrun
        cases hrun
      have hnot := ((hcond.resolve_left hk).resolve_left hv).resolve_left hrel
      rw [not_and, not_le] at hnot
      refine ⟨fun hold => ?_, hnot⟩
      rw [deadline, if_neg hrel]
      linarith

theorem followsOption_iff_ex :
    FollowsOption .exact (ascii "k") (ascii "v") ⟨ascii "EX", by decide⟩ ⟨ascii "60", by decide⟩
        ⟨5, 0⟩ ⟨65, 1⟩ 1700000000 ↔
      ascii "k" = [] ∨ ascii "v" = [] ∨ IsRelative ⟨ascii "EX", by decide⟩ ∨
        ¬ (deadline ⟨ascii "EX", by decide⟩ (value (ascii "60")) ⟨5, 0⟩ 1700000000 <
            (⟨65, 1⟩ : Timespec).secs ∧
          (⟨65, 1⟩ : Timespec).secs ≤ (⟨5, 0⟩ : Timespec).secs +
            (value (ascii "60") : Nat) * unit ⟨ascii "EX", by decide⟩) :=
  followsOption_iff rfl _ _ _ (by decide) (by decide) ⟨65, 1⟩ (by norm_num [Timespec.secs])

/-- `SET k v EXAT 1700000010` at the unix time 1700000000, and `GET k` twenty seconds later: the
value is answered, and will be for decades. -/
theorem exat_not_followsOption :
    ¬ FollowsOption .exact (ascii "k") (ascii "v") ⟨ascii "EXAT", by decide⟩
      ⟨ascii "1700000010", by decide⟩ ⟨0, 0⟩ ⟨20, 0⟩ 1700000000 := by
  intro hf
  have hnil := (hf .ok .create ⟨some [some ⟨ascii "k", ⟨0, 0⟩, 1700000010, 0⟩],
    some [some ⟨ascii "v", .bulkStr⟩], 1, 0⟩ [] stores_create (by decide) (by decide)).mpr (by
      have hrel : ¬ IsRelative ⟨ascii "EXAT", by decide⟩ := by decide
      have hu : unit ⟨ascii "EXAT", by decide⟩ = 1 := rfl
      have hv : value (ascii "1700000010") = 1700000010 := by decide
      rw [deadline, if_neg hrel, hu, hv]
      norm_num [Timespec.secs])
  revert hnil
  decide +kernel

end RedisImpl
