import RedisImpl.Store.FiniteMap
import Mathlib.Data.Nat.Log

/-!
# Growth of the arrays

The arrays double when a new key finds them full and never get smaller (`remove_key` keeps their
capacity). So the capacity is given by the largest number of keys that the map has ever had, `peak`:
it is the least power of two that is not below. The doublings copy each slot of the old arrays,
which is one slot for each call on the average, and at most two (`run_growth`). Removing keys leaves
the capacity as it is (`capacity_removeKeys`).
-/

namespace RedisImpl

open SimpleMap

variable {κ ν ι : Type} [DecidableEq ι] (id : κ → ι)

/-- The largest number of keys that the finite map has during the calls. -/
def FiniteMap.peak : List (Call κ ν) → FiniteMap κ ν ι → Nat
  | [], m => m.order.length
  | c :: cs, m => max m.order.length (peak cs (m.call id c).2)

/-- The slots of the old array that the doublings during the calls copy. -/
def SimpleMap.copied (cmp : κ → κ → Bool) : List (Call κ ν) → SimpleMap κ ν → Int
  | [], _ => 0
  | c :: cs, sm =>
    let sm' := (sm.call cmp c).2
    (if sm'.capacity = sm.capacity then 0 else sm.capacity) + copied cmp cs sm'

variable {id} {sm : SimpleMap κ ν} {es : List (κ × ν)}

/-! ## One call -/

variable (id) in
/-- A call adds one key at most. -/
theorem FiniteMap.length_call_le (m : FiniteMap κ ν ι) (c : Call κ ν) :
    (m.call id c).2.order.length ≤ m.order.length + 1 := by
  cases c with
  | set kvp =>
    cases hl : m.entry (id kvp.key) with
    | none => simp [FiniteMap.call, hl]
    | some e => simp [FiniteMap.call, hl]
  | get key => exact Nat.le_succ _
  | removeKey key =>
    cases hl : m.entry (id key) with
    | none => simp [FiniteMap.call, hl]
    | some e =>
      have herase := List.length_erase_le (l := m.order) (a := id key)
      simp only [FiniteMap.call, hl]
      omega

omit [DecidableEq ι] in
theorem SimpleMap.Stores.isFull_iff (h : Stores id sm es) :
    sm.isFull = true ↔ (es.length : Int) = sm.capacity := by
  have htop := h.top
  simp only [isFull, decide_eq_true_eq]
  omega

/-- Removing keys never lowers the capacity. -/
theorem SimpleMap.Stores.capacity_removeKeys (h : Stores id sm es) (ks : List κ) :
    (SimpleMap.run (cmpBy id) (ks.map .removeKey) sm).2.capacity = sm.capacity := by
  induction ks generalizing sm es with
  | nil => rfl
  | cons k ks ih =>
    obtain ⟨sm', hst, hcap, hrun⟩ := h.removeKey_eq k
    have hcall : (sm.call (cmpBy id) (.removeKey k)).2 = sm' := by
      cases hl : Keyed.lookup (ident id) es (id k) with
      | none =>
        rw [hl] at hrun
        simp only [SimpleMap.call, hrun]
      | some e =>
        rw [hl] at hrun
        simp only [SimpleMap.call, hrun]
    simp only [List.map_cons, SimpleMap.run]
    rw [hcall, ih hst, hcap]

/-- Only a call that adds a key to full arrays changes the capacity. -/
theorem SimpleMap.Stores.capacity_call (h : Stores id sm es) (hs : es.length < 2 ^ 30)
    (c : Call κ ν) :
    (sm.call (cmpBy id) c).2.capacity =
      if es.length < ((FiniteMap.ofEntries id es).call id c).2.order.length ∧
        (es.length : Int) = sm.capacity then 2 * sm.capacity else sm.capacity := by
  have hlen : (FiniteMap.ofEntries id es).order.length = es.length := by
    simp [FiniteMap.ofEntries]
  cases c with
  | set kvp =>
    cases hl : Keyed.lookup (ident id) es (id kvp.key) with
    | none =>
      have hl' : (FiniteMap.ofEntries id es).entry (id kvp.key) = none := hl
      have hadd : es.length < ((FiniteMap.ofEntries id es).call id (.set kvp)).2.order.length := by
        simp [FiniteMap.call, hl', hlen]
      have hcap := h.capacity_set (fun _ => hs) kvp hl
      simp only [h.isFull_iff] at hcap
      simp only [hadd, true_and]
      exact hcap
    | some e =>
      have hl' : (FiniteMap.ofEntries id es).entry (id kvp.key) = some (e.1, e.2) := hl
      have hsame : ((FiniteMap.ofEntries id es).call id (.set kvp)).2.order.length = es.length := by
        simp [FiniteMap.call, hl', hlen]
      obtain ⟨sm', hset, -, hcap⟩ := h.set_upgrade .ok kvp hl
      rw [hsame, if_neg (by omega)]
      simp only [SimpleMap.call, hset, hcap]
  | get key =>
    have hsame : ((FiniteMap.ofEntries id es).call id (.get key)).2.order.length = es.length := hlen
    rw [hsame, if_neg (by omega)]
    rfl
  | removeKey key =>
    have hkeep : (sm.call (cmpBy id) (.removeKey key)).2.capacity = sm.capacity :=
      h.capacity_removeKeys [key]
    have hless : ((FiniteMap.ofEntries id es).call id (.removeKey key)).2.order.length ≤
        es.length := by
      cases hl : (FiniteMap.ofEntries id es).entry (id key) with
      | none => simp [FiniteMap.call, hl, hlen]
      | some e =>
        have herase := List.length_erase_le (l := (FiniteMap.ofEntries id es).order) (a := id key)
        simp only [FiniteMap.call, hl]
        omega
    rw [if_neg (by omega)]
    exact hkeep

/-- The least power of two that is not below the peak `p`, when the number of keys goes from `n` to
`n'`. -/
theorem two_pow_clog_max {n n' p : Nat} (hn : n ≤ p) (hn' : n' ≤ n + 1) :
    2 ^ Nat.clog 2 (max p n') =
      if n < n' ∧ n = 2 ^ Nat.clog 2 p then 2 * 2 ^ Nat.clog 2 p else 2 ^ Nat.clog 2 p := by
  have hle : p ≤ 2 ^ Nat.clog 2 p := Nat.le_pow_clog Nat.one_lt_two p
  rcases Nat.lt_or_ge p n' with hlt | hge
  · obtain rfl : n = p := by omega
    obtain rfl : n' = n + 1 := by omega
    rw [Nat.max_eq_right (Nat.le_succ n)]
    by_cases hfull : n = 2 ^ Nat.clog 2 n
    · have hlog : Nat.clog 2 (n + 1) = Nat.clog 2 n + 1 := by
        apply Nat.le_antisymm
        · apply Nat.clog_le_of_le_pow
          rw [Nat.pow_succ]
          have hpos := Nat.two_pow_pos (Nat.clog 2 n)
          omega
        · exact (Nat.clog_lt_clog_succ_iff Nat.one_lt_two).mpr hfull.symm
      rw [if_pos ⟨Nat.lt_succ_self n, hfull⟩, hlog, Nat.pow_succ, Nat.mul_comm]
    · have hlog : Nat.clog 2 n = Nat.clog 2 (n + 1) :=
        (Nat.clog_eq_clog_succ_iff Nat.one_lt_two).mpr (Ne.symm hfull)
      rw [if_neg fun h => hfull h.2, ← hlog]
  · rw [Nat.max_eq_left hge, if_neg]
    omega

/-! ## Sequences of calls -/

variable (id) in
theorem FiniteMap.length_le_peak (cs : List (Call κ ν)) (m : FiniteMap κ ν ι) :
    m.order.length ≤ FiniteMap.peak id cs m := by
  cases cs with
  | nil => exact le_rfl
  | cons c cs => exact le_max_left _ _

variable (id) in
theorem FiniteMap.peak_le (cs : List (Call κ ν)) (m : FiniteMap κ ν ι) :
    FiniteMap.peak id cs m ≤ m.order.length + cs.length := by
  induction cs generalizing m with
  | nil => exact le_rfl
  | cons c cs ih =>
    have hcall := m.length_call_le id c
    have hrest := ih (m.call id c).2
    rw [FiniteMap.peak, List.length_cons]
    omega

/-- The capacity follows the peak `p` of the calls before, and all that is copied is in it. -/
theorem SimpleMap.Stores.growth {cs : List (Call κ ν)} (h : Stores id sm es) {p : Nat}
    (hp : es.length ≤ p) (hcap : sm.capacity = (2 ^ Nat.clog 2 p : Nat))
    (hpeak : FiniteMap.peak id cs (FiniteMap.ofEntries id es) < 2 ^ 30) :
    (SimpleMap.run (cmpBy id) cs sm).2.capacity =
        (2 ^ Nat.clog 2 (max p (FiniteMap.peak id cs (FiniteMap.ofEntries id es))) : Nat) ∧
      copied (cmpBy id) cs sm + sm.capacity = (SimpleMap.run (cmpBy id) cs sm).2.capacity := by
  induction cs generalizing sm es p with
  | nil =>
    have hlen : (FiniteMap.ofEntries id es).order.length = es.length := by
      simp [FiniteMap.ofEntries]
    rw [FiniteMap.peak, hlen, Nat.max_eq_left hp]
    exact ⟨hcap, zero_add _⟩
  | cons c cs ih =>
    have hlen : (FiniteMap.ofEntries id es).order.length = es.length := by
      simp [FiniteMap.ofEntries]
    rw [FiniteMap.peak, hlen] at hpeak ⊢
    have hs : es.length < 2 ^ 30 := lt_of_le_of_lt (le_max_left _ _) hpeak
    obtain ⟨r, sm₁, es₁, hcall, hst, habs⟩ := h.call hs c
    have hlen₁ : (FiniteMap.ofEntries id es₁).order.length = es₁.length := by
      simp [FiniteMap.ofEntries]
    have hsm : (sm.call (cmpBy id) c).2 = sm₁ := by
      rw [hcall]
    have hm : ((FiniteMap.ofEntries id es).call id c).2 = FiniteMap.ofEntries id es₁ := by
      rw [habs]
    have hadd := (FiniteMap.ofEntries id es).length_call_le id c
    have hstep := h.capacity_call hs c
    rw [hm, hlen₁, hlen] at hadd
    rw [hm, hlen₁, hsm] at hstep
    rw [hm] at hpeak ⊢
    have hcap₁ : sm₁.capacity = (2 ^ Nat.clog 2 (max p es₁.length) : Nat) := by
      rw [two_pow_clog_max hp hadd, hstep, hcap]
      simp only [Nat.cast_inj, Nat.cast_ite, Nat.cast_mul, Nat.cast_ofNat]
    obtain ⟨hrun, hcopied⟩ := ih hst (le_max_right p es₁.length) hcap₁
      (lt_of_le_of_lt (le_max_right _ _) hpeak)
    have hlast : (SimpleMap.run (cmpBy id) (c :: cs) sm).2 =
        (SimpleMap.run (cmpBy id) cs sm₁).2 := by
      simp only [SimpleMap.run, hcall]
    have hsum : copied (cmpBy id) (c :: cs) sm =
        (if sm₁.capacity = sm.capacity then 0 else sm.capacity) + copied (cmpBy id) cs sm₁ := by
      rw [copied, hsm]
    rw [hlast]
    constructor
    · have hfirst := FiniteMap.length_le_peak id cs (FiniteMap.ofEntries id es₁)
      rw [hlen₁] at hfirst
      have hmax : max (max p es₁.length) (FiniteMap.peak id cs (FiniteMap.ofEntries id es₁)) =
          max p (max es.length (FiniteMap.peak id cs (FiniteMap.ofEntries id es₁))) := by
        omega
      rw [hrun, hmax]
    · rw [← hcopied, hsum]
      by_cases hsame : sm₁.capacity = sm.capacity
      · rw [if_pos hsame, hsame]
        omega
      · -- the capacity changed, so it doubled
        rw [if_neg hsame]
        split_ifs at hstep
        · omega
        · exact absurd hstep hsame

/-- From `create_simple_map` on, when the map never has `2^30` keys: the capacity is the least power
of two that is not below the largest number of keys so far; the slots that doublings copied are one
fewer than that, and at most two for each call. -/
theorem run_growth (cs : List (Call KeyNode ν))
    (hpeak : FiniteMap.peak KeyNode.id cs .empty < 2 ^ 30) :
    (SimpleMap.run compare cs .create).2.capacity =
        (2 ^ Nat.clog 2 (FiniteMap.peak KeyNode.id cs .empty) : Nat) ∧
      copied compare cs .create + 1 = (SimpleMap.run compare cs .create).2.capacity ∧
      copied compare cs .create ≤ 2 * cs.length := by
  have hempty : (FiniteMap.empty : FiniteMap KeyNode ν Bytes) = FiniteMap.ofEntries KeyNode.id [] :=
    rfl
  have hle := FiniteMap.peak_le KeyNode.id cs (FiniteMap.empty : FiniteMap KeyNode ν Bytes)
  rw [hempty] at hpeak hle ⊢
  obtain ⟨hrun, hcopied⟩ := stores_create.growth (p := 0) le_rfl (by simp [create]) hpeak
  rw [Nat.zero_max] at hrun
  rw [compare_eq_cmpBy]
  refine ⟨hrun, hcopied, ?_⟩
  have hone : (create : SimpleMap KeyNode ν).capacity = 1 := rfl
  rw [hrun, hone] at hcopied
  generalize FiniteMap.peak KeyNode.id cs (FiniteMap.ofEntries KeyNode.id []) = p at *
  rcases Nat.lt_or_ge 1 p with hp | hp
  · have hlow := Nat.pow_pred_clog_lt_self Nat.one_lt_two hp
    have hlog := Nat.clog_pos Nat.one_lt_two hp
    have hpow : 2 ^ Nat.clog 2 p = 2 * 2 ^ (Nat.clog 2 p).pred := by
      rw [← Nat.pow_succ', Nat.succ_pred hlog.ne']
    have hlen : (FiniteMap.ofEntries KeyNode.id ([] : List (KeyNode × ν))).order.length = 0 := rfl
    omega
  · rw [Nat.clog_of_right_le_one hp] at hcopied
    omega

/-- Three keys, of which one is removed before the third is stored. -/
theorem setSetRemove_growth :
    (SimpleMap.run compare setSetRemove .create).2.capacity =
        (2 ^ Nat.clog 2 (FiniteMap.peak KeyNode.id setSetRemove .empty) : Nat) ∧
      copied compare setSetRemove .create + 1 =
        (SimpleMap.run compare setSetRemove .create).2.capacity ∧
      copied compare setSetRemove .create ≤ 2 * setSetRemove.length :=
  run_growth setSetRemove (by decide)

end RedisImpl
