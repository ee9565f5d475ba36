import RedisImpl.Protocol.Items

/-!
# The reader and the items

`readRequest_tracks` connects the reader of `Protocol/Reader.lean` with the flat view of
`Protocol/Items.lean`: a flaw is met if and only if the reader builds a flawed shape or ends with a
fault, and the message ends where the reader does.
-/

namespace RedisImpl

/-! ## What the reader takes -/

section Tracks

variable {s : Bool} {h : Bool} {k K : Nat} {bs rest : Bytes}

theorem flaw_eq_or (h : Bool) (bs : Bytes) : flaw h bs = true ↔ broken bs = true ∨ h = true ∧ huge bs = true := by
  simp only [flaw, Bool.or_eq_true, Bool.and_eq_true]

theorem readBulk_eq_done {b : Bytes} (hb : readBulk bs = .done b rest) :
    ∃ n r, readSize bs = .size n r ∧ 0 ≤ n ∧ n ≤ 512000000 ∧ b = r.take n.toNat ∧
      r.drop n.toNat = 13 :: 10 :: rest := by
  unfold readBulk at hb
  split at hb
  · cases hb
  · cases hb
  · rename_i n r hr
    split at hb
    · cases hb
    split at hb
    · cases hb
    split at hb
    · cases hb
    split at hb
    · cases hb
    · rename_i hn _ hc
      cases hb
      exact ⟨n, r, hr, by omega, by omega, rfl, afterCrlf_eq_some.mp hc⟩

theorem readSize_length {n : Int} (hr : readSize bs = .size n rest) : rest.length < bs.length := by
  rcases readSize_eq_size hr with ⟨-, rfl⟩ | ⟨ds, -, -, -, rfl⟩
  · simp only [List.length_cons]
    omega
  · simp only [List.length_append, List.length_cons]
    omega

theorem readBulk_length {b : Bytes} (hb : readBulk bs = .done b rest) :
    rest.length < bs.length := by
  obtain ⟨n, r, hr, -, -, -, hd⟩ := readBulk_eq_done hb
  have hlt := readSize_length hr
  have hlen := congrArg List.length hd
  simp only [List.length_drop, List.length_cons] at hlen
  omega

/-- A size is an `int`. -/
theorem readSize_bounds {n : Int} (hr : readSize bs = .size n rest) :
    -2 ^ 31 ≤ n ∧ n < 2 ^ 31 := by
  rcases readSize_eq_size hr with ⟨rfl, -⟩ | ⟨ds, -, -, rfl, -⟩
  · omega
  · have hle := BitVec.le_toInt (BitVec.ofNat 32 (value ds))
    have hlt := BitVec.toInt_lt (x := BitVec.ofNat 32 (value ds))
    rw [intValue]
    omega

/-- The array has as many elements as its size says, unless the size is negative. -/
theorem count_eq_iff {n : Int} (hr : readSize bs = .size n rest) :
    n = ((BitVec.ofInt 32 n).toNat : Int) ↔ 0 ≤ n := by
  have hb := readSize_bounds hr
  rw [BitVec.toNat_ofInt]
  omega

/-- The item after the type byte `c` is read as `e`, and `mid` follows it. -/
inductive ReadsItem (rd : Bytes → Outcome (Shape s)) : UInt8 → Bytes → Shape s → Bytes → Prop
  | bulk {bs b mid : Bytes} : readBulk bs = .done b mid → ReadsItem rd 36 bs (.bulk b) mid
  | array {bs mid : Bytes} {e : Shape s} : rd bs = .done e mid → ReadsItem rd 42 bs e mid
  | stray {c : UInt8} (bs : Bytes) (hs : s = true) : c ≠ 36 → c ≠ 42 →
    ReadsItem rd c bs (.stray hs) bs

theorem giveUp_ne_done {α : Type} {els : List (Shape s)} {a : α} : giveUp els ≠ .done a rest := by
  intro h
  unfold giveUp at h
  split at h <;> cases h

theorem readsItem_of_readItem {rd : Bytes → Outcome (Shape s)} {c : UInt8} {e : Shape s}
    (hr : readItem rd c bs = .done e rest) : ReadsItem rd c bs e rest := by
  unfold readItem at hr
  split at hr
  · rename_i h36
    subst h36
    cases hb : readBulk bs with
    | done b mid =>
      rw [hb] at hr
      cases hr
      exact .bulk hb
    | reject =>
      rw [hb] at hr
      cases hr
    | fault =>
      rw [hb] at hr
      cases hr
  · rename_i h36
    split at hr
    · rename_i h42
      subst h42
      exact .array hr
    · rename_i h42
      split at hr
      · rename_i hs
        cases hr
        exact .stray bs hs h36 h42
      · cases hr

/-- Where all elements are read, the first one is. -/
theorem readElements_succ_eq_done {rd : Bytes → Outcome (Shape s)} {els els' : List (Shape s)}
    (hr : readElements rd (k + 1) els bs = .done els' rest) :
    ∃ c bs' e mid, bs = c :: bs' ∧ ReadsItem rd c bs' e mid ∧
      readElements rd k (els ++ [e]) mid = .done els' rest := by
  cases bs with
  | nil => exact absurd hr giveUp_ne_done
  | cons c bs =>
    rw [readElements_cons] at hr
    cases hi : readItem rd c bs with
    | done e mid =>
      rw [hi] at hr
      exact ⟨c, bs, e, mid, rfl, readsItem_of_readItem hi, hr⟩
    | reject =>
      rw [hi] at hr
      exact absurd hr giveUp_ne_done
    | fault =>
      rw [hi] at hr
      cases hr

/-- The elements that were read come after those that were there. -/
theorem readElements_append {rd : Bytes → Outcome (Shape s)} {els els' : List (Shape s)}
    (hr : readElements rd k els bs = .done els' rest) :
    ∃ new, els' = els ++ new ∧ new.length = k := by
  induction k generalizing els bs with
  | zero =>
    cases hr
    exact ⟨[], (List.append_nil _).symm, rfl⟩
  | succ k ih =>
    obtain ⟨c, bs', e, mid, -, -, hr'⟩ := readElements_succ_eq_done hr
    obtain ⟨new, rfl, hlen⟩ := ih hr'
    exact ⟨e :: new, by rw [List.append_assoc]; rfl, by rw [List.length_cons, hlen]⟩

/-- What the outcome `o` of reading `k` items at `bs` says about the items. `f` tells whether
something flawed was read before, `fl` whether a value is flawed. Without strays as shapes, giving
up is a fault if and only if a flaw was met; with them, it only says that the message does not
end. -/
def Outcome.Tracks {α : Type} (s h : Bool) (fl : α → Bool) (f : Bool) (k : Nat) (bs : Bytes)
    (o : Outcome α) : Prop :=
  match o with
  | .done a rest => rest.length ≤ bs.length ∧
      (∀ K, f = true ∨ Meets (flaw h ·) (k + K) bs ↔ fl a = true ∨ Meets (flaw h ·) K rest) ∧
      ∀ K out, Accepted (k + K) bs out ↔ Accepted K rest out
  | .reject => (∀ K out, ¬ Accepted (k + K) bs out) ∧
      (s = false → h = false → ∀ K, ¬ (f = true ∨ Meets (flaw h ·) (k + K) bs))
  | .fault => (s = true → ∀ K out, ¬ Accepted (k + K) bs out) ∧
      (s = false → h = false → ∀ K, f = true ∨ Meets (flaw h ·) (k + K) bs)

/-- One or more items are read, flawed if `g`, and then `o` is the outcome. -/
theorem Outcome.Tracks.step {α : Type} {fl : α → Bool} {f g : Bool} {k' : Nat} {o : Outcome α}
    (ho : o.Tracks s h fl (f || g) k rest) (hlen : rest.length ≤ bs.length)
    (hm : ∀ K, Meets (flaw h ·) (k' + K) bs ↔ g = true ∨ Meets (flaw h ·) (k + K) rest)
    (ha : ∀ K out, Accepted (k' + K) bs out ↔ Accepted (k + K) rest out) :
    o.Tracks s h fl f k' bs := by
  have hfm : ∀ K, (f = true ∨ Meets (flaw h ·) (k' + K) bs) ↔
      ((f || g) = true ∨ Meets (flaw h ·) (k + K) rest) := by
    intro K
    rw [hm, Bool.or_eq_true, or_assoc]
  cases o with
  | done a rest' =>
    obtain ⟨hl, hm', ha'⟩ := ho
    exact ⟨hl.trans hlen, fun K => (hfm K).trans (hm' K), fun K out => (ha K out).trans (ha' K out)⟩
  | reject =>
    obtain ⟨ha', hm'⟩ := ho
    exact ⟨fun K out hacc => ha' K out ((ha K out).mp hacc),
      fun hs hh K hx => hm' hs hh K ((hfm K).mp hx)⟩
  | fault =>
    obtain ⟨ha', hm'⟩ := ho
    exact ⟨fun hs K out hacc => ha' hs K out ((ha K out).mp hacc),
      fun hs hh K => (hfm K).mpr (hm' hs hh K)⟩

/-- Giving up at an item that is not flawed. -/
theorem giveUp_tracks {els : List (Shape s)} {fl : List (Shape s) → Bool} {k : Nat}
    (ha : ∀ K out, ¬ Accepted (k + K) bs out)
    (hm : s = false → h = false → ∀ K, ¬ Meets (flaw h ·) (k + K) bs) :
    (giveUp els : Outcome (List (Shape s))).Tracks s h fl (Shape.flawedList h els) k bs := by
  have hsp : s = false → h = false → Shape.flawedList h els = Shape.spoiledList els := by
    rintro rfl rfl
    exact Shape.flawedList_eq_spoiledList els
  unfold giveUp
  split
  · rename_i hs
    exact ⟨fun _ => ha, fun h1 h2 K => .inl ((hsp h1 h2).trans hs)⟩
  · rename_i hs
    refine ⟨ha, fun h1 h2 K hx => ?_⟩
    rcases hx with hf | hx
    · exact hs ((hsp h1 h2).symm.trans hf)
    · exact hm h1 h2 K hx

theorem skipItem_bulk (bs : Bytes) : skipItem (36 :: bs) =
    match readBulk bs with
    | .done _ rest => some (0, rest)
    | _ => none := rfl

theorem skipItem_stray {c : UInt8} (h36 : c ≠ 36) (h42 : c ≠ 42) (bs : Bytes) :
    skipItem (c :: bs) = some (0, bs) := by
  rw [skipItem, if_neg h36, if_neg h42]

/-- A bulk string that is read or rejected is not flawed. -/
theorem flaw_bulk (hb : readBulk bs ≠ .fault) : ¬ flaw h (36 :: bs) = true := by
  rw [flaw_eq_or]
  rintro (hf | ⟨-, hf⟩)
  · apply hb
    simp only [broken, if_true] at hf
    unfold readBulk
    split at hf
    · rename_i n r hr
      have hn : n = -1 := of_decide_eq_true hf
      simp only [hr]
      subst hn
      rfl
    · rename_i hr
      simp only [hr]
    · cases hf
  · simp [huge] at hf

theorem flaw_bulk_fault (hb : readBulk bs = .fault) : flaw h (36 :: bs) = true := by
  rw [flaw_eq_or]
  left
  simp only [broken, if_true]
  unfold readBulk at hb
  split at hb
  · cases hb
  · rename_i hr
    simp only [hr]
  · rename_i n r hr
    split at hb
    · cases hb
    split at hb
    · rename_i hn
      simp only [hr, hn, decide_true]
    split at hb
    · cases hb
    split at hb
    · cases hb
    · cases hb

/-- An item that the reader rejects without a flaw. -/
theorem reject_tracks {α : Type} {fl : α → Bool} (hskip : skipItem bs = none)
    (hn : s = false → h = false → ¬ flaw h bs = true) :
    (.reject : Outcome α).Tracks s h fl false 1 bs := by
  refine ⟨fun K out => ?_, fun hs hh K => ?_⟩
  · rw [Nat.add_comm]
    exact not_accepted_stop hskip
  · rw [Nat.add_comm, meets_stop hskip]
    rintro (hf | hf)
    · cases hf
    · exact hn hs hh hf

/-- An item that is a flaw and the end of what the reader does. -/
theorem fault_tracks {α : Type} {fl : α → Bool}
    (ha : s = true → skipItem bs = none) (hf : flaw h bs = true) :
    (.fault : Outcome α).Tracks s h fl false 1 bs := by
  refine ⟨fun hs K out => ?_, fun _ _ K => .inr ?_⟩
  · rw [Nat.add_comm]
    exact not_accepted_stop (ha hs)
  · exact Meets.first hf K

/-- An item without elements. -/
theorem item_tracks {α : Type} {fl : α → Bool} {a : α} (hskip : skipItem bs = some (0, rest))
    (hlen : rest.length ≤ bs.length) (hf : flaw h bs = true ↔ fl a = true) :
    (.done a rest : Outcome α).Tracks s h fl false 1 bs := by
  refine ⟨hlen, fun K => ?_, fun K out => ?_⟩
  · rw [Nat.add_comm, meets_skip hskip, Nat.zero_add, hf]
    simp only [Bool.false_eq_true, false_or]
  · rw [Nat.add_comm, accepted_skip hskip, Nat.zero_add]

/-- Reading an element, if `rd` reads arrays. -/
theorem readItem_tracks {rd : Bytes → Outcome (Shape s)} {c : UInt8}
    (hrd : (rd bs).Tracks s h (Shape.flawed h) false 1 (42 :: bs)) :
    (readItem rd c bs).Tracks s h (Shape.flawed h) false 1 (c :: bs) := by
  unfold readItem
  by_cases h36 : c = 36
  · subst h36
    rw [if_pos rfl]
    cases hb : readBulk bs with
    | done b rest =>
      have hskip : skipItem (36 :: bs) = some (0, rest) := by rw [skipItem_bulk, hb]
      have hlt := readBulk_length hb
      have hnf : ¬ flaw h (36 :: bs) = true := flaw_bulk (by rw [hb]; intro he; cases he)
      refine item_tracks hskip ?_ ?_
      · simp only [List.length_cons]
        omega
      · simp only [hnf, Shape.flawed, Bool.false_eq_true]
    | reject =>
      have hskip : skipItem (36 :: bs) = none := by rw [skipItem_bulk, hb]
      exact reject_tracks hskip fun _ _ => flaw_bulk (by rw [hb]; intro he; cases he)
    | fault =>
      have hskip : skipItem (36 :: bs) = none := by rw [skipItem_bulk, hb]
      exact fault_tracks (fun _ => hskip) (flaw_bulk_fault hb)
  rw [if_neg h36]
  by_cases h42 : c = 42
  · subst h42
    rw [if_pos rfl]
    exact hrd
  rw [if_neg h42]
  have hflaw : flaw h (c :: bs) = true := by
    rw [flaw_eq_or]
    left
    rw [broken, if_neg h36, if_neg h42]
  -- a stray is an item of one byte, or a fault
  by_cases hs : s = true
  · rw [dif_pos hs]
    refine item_tracks (skipItem_stray h36 h42 bs) (Nat.le_succ _) ?_
    simp only [hflaw, Shape.flawed]
  · rw [dif_neg hs]
    exact fault_tracks (fun hs' => absurd hs' hs) hflaw

/-- An element, and then the later ones. -/
theorem Outcome.Tracks.element {o : Outcome (Shape s)} {els : List (Shape s)}
    {next : List (Shape s) → Bytes → Outcome (List (Shape s))}
    (ho : o.Tracks s h (Shape.flawed h) false 1 bs)
    (hnext : ∀ e mid, mid.length ≤ bs.length →
      (next (els ++ [e]) mid).Tracks s h (Shape.flawedList h) (Shape.flawedList h (els ++ [e])) k
        mid) :
    (afterElement els next o).Tracks s h (Shape.flawedList h) (Shape.flawedList h els) (k + 1)
      bs := by
  have hk : ∀ K, k + 1 + K = 1 + (k + K) := by
    intro K
    omega
  cases o with
  | done e rest =>
    obtain ⟨hl, hm, ha⟩ := ho
    have hrec := hnext e rest hl
    rw [Shape.flawedList_append, Shape.flawedList, Shape.flawedList, Bool.or_false] at hrec
    refine hrec.step hl (fun K => ?_) (fun K out => ?_)
    · have := hm (k + K)
      simp only [Bool.false_eq_true, false_or] at this
      rw [hk, this]
    · rw [hk, ha]
  | reject =>
    obtain ⟨ha, hm⟩ := ho
    refine giveUp_tracks (fun K out => ?_) (fun hs hh K hx => ?_)
    · rw [hk]
      exact ha _ _
    · rw [hk] at hx
      exact hm hs hh _ (.inr hx)
  | fault =>
    obtain ⟨ha, hm⟩ := ho
    refine ⟨fun hs K out => ?_, fun hs hh K => .inr ?_⟩
    · rw [hk]
      exact ha hs _ _
    · have := hm hs hh (k + K)
      simp only [Bool.false_eq_true, false_or] at this
      rw [hk]
      exact this

/-- Reading elements, if `rd` reads arrays. -/
theorem readElements_tracks {rd : Bytes → Outcome (Shape s)} {els : List (Shape s)} {m : Nat}
    (hrd : ∀ bs, bs.length < m → (rd bs).Tracks s h (Shape.flawed h) false 1 (42 :: bs))
    (hbs : bs.length ≤ m) :
    (readElements rd k els bs).Tracks s h (Shape.flawedList h) (Shape.flawedList h els) k bs := by
  induction k generalizing els bs with
  | zero =>
    refine ⟨Nat.le_refl _, fun K => ?_, fun K out => ?_⟩
    · rw [Nat.zero_add]
    · rw [Nat.zero_add]
  | succ k ih =>
    cases bs with
    | nil =>
      have hk : ∀ K, k + 1 + K = k + K + 1 := by
        intro K
        omega
      refine giveUp_tracks (fun K out => ?_) (fun _ hh K => ?_)
      · rw [hk]
        exact not_accepted_stop rfl
      · rw [hk, meets_stop rfl, flaw_eq_or]
        simp [broken, huge]
    | cons c bs =>
      rw [readElements_cons]
      refine (readItem_tracks (hrd bs hbs)).element ?_
      intro e mid hmid
      exact ih (hmid.trans hbs)

theorem skipItem_array (bs : Bytes) : skipItem (42 :: bs) =
    match readSize bs with
    | .size n rest =>
      if n = errInvChar then none
      else if n = -1 then some (0, rest)
      else some ((BitVec.ofInt 32 n).toNat, rest)
    | _ => none := rfl

/-- The flaws of an array's size prefix. -/
theorem flaw_array {n : Int} (hr : readSize bs = .size n rest) :
    flaw h (42 :: bs) = true ↔ n = -1 ∨ n = 0 ∨ h = true ∧ n < errInvChar := by
  rw [flaw_eq_or]
  simp only [broken, huge, hr, Bool.or_eq_true, Bool.and_eq_true, decide_eq_true_eq, if_true, or_assoc,
    true_and, show ¬ (42 : UInt8) = 36 by decide, if_false]

/-- An array that is neither empty nor nil, of which `o` is the elements. -/
theorem Outcome.Tracks.array {n : Int} {o : Outcome (List (Shape s))}
    (hr : readSize bs = .size n rest) (hn : n ≠ errInvChar ∧ n ≠ -1 ∧ n ≠ 0)
    (hels : o.Tracks s h (Shape.flawedList h) false (BitVec.ofInt 32 n).toNat rest)
    (hcount : ∀ els rest', o = .done els rest' → els.length = (BitVec.ofInt 32 n).toNat) :
    (o.map (Shape.array n)).Tracks s h (Shape.flawed h) false 1 (42 :: bs) := by
  obtain ⟨h2, h1, h0⟩ := hn
  have hlt := readSize_length hr
  have hskip : skipItem (42 :: bs) = some ((BitVec.ofInt 32 n).toNat, rest) := by
    rw [skipItem_array, hr]
    simp only [h2, h1, if_false]
  have hmeets : ∀ K, Meets (flaw h ·) (1 + K) (42 :: bs) ↔ (h = true ∧ n < errInvChar) ∨
      Meets (flaw h ·) ((BitVec.ofInt 32 n).toNat + K) rest := by
    intro K
    rw [Nat.add_comm, meets_skip hskip, flaw_array hr]
    simp only [h1, h0, false_or]
  have hacc : ∀ K out, Accepted (1 + K) (42 :: bs) out ↔
      Accepted ((BitVec.ofInt 32 n).toNat + K) rest out := by
    intro K out
    rw [Nat.add_comm, accepted_skip hskip]
  cases o with
  | done els rest' =>
    obtain ⟨hl, hm, ha⟩ := hels
    refine ⟨by simp only [List.length_cons]; omega, fun K => ?_, fun K out => ?_⟩
    · -- the loop makes as many rounds as `n` is as an unsigned `int`
      have hsize : n ≠ (els.length : Int) ↔ n < errInvChar := by
        have hiff := count_eq_iff hr
        rw [hcount els rest' rfl, ne_eq, hiff]
        unfold errInvChar at h2 ⊢
        omega
      have hm' := hm K
      simp only [Bool.false_eq_true, false_or] at hm'
      simp only [Bool.false_eq_true, false_or, Shape.flawed, Bool.or_eq_true, Bool.and_eq_true,
        decide_eq_true_eq]
      rw [hmeets, hm', hsize, or_assoc]
    · rw [hacc, ha]
  | reject =>
    obtain ⟨ha, hm⟩ := hels
    refine ⟨fun K out hx => ha K out ((hacc K out).mp hx), fun hs hh K hx => ?_⟩
    rcases hx with hx | hx
    · cases hx
    rcases (hmeets K).mp hx with hx | hx
    · rw [hh] at hx
      cases hx.1
    · exact hm hs hh K (.inr hx)
  | fault =>
    obtain ⟨ha, hm⟩ := hels
    refine ⟨fun hs K out hx => ha hs K out ((hacc K out).mp hx), fun hs hh K => .inr ?_⟩
    rcases hm hs hh K with hx | hx
    · cases hx
    · exact (hmeets K).mpr (.inr hx)

/-- Reading an array. -/
theorem readArray_tracks {fuel : Nat} (hf : bs.length < fuel) :
    (readArray s fuel bs).Tracks s h (Shape.flawed h) false 1 (42 :: bs) := by
  induction fuel generalizing bs with
  | zero => exact absurd hf (Nat.not_lt_zero _)
  | succ fuel ih =>
    cases hr : readSize bs with
    | bad =>
      rw [readArray, hr]
      refine reject_tracks (by rw [skipItem_array, hr]) fun _ _ => ?_
      rw [flaw_eq_or]
      simp [broken, huge, hr]
    | long =>
      rw [readArray, hr]
      refine fault_tracks (fun _ => by rw [skipItem_array, hr]) ?_
      rw [flaw_eq_or]
      simp [broken, hr]
    | size n rest =>
      have hlt := readSize_length hr
      by_cases hn : n ≠ errInvChar ∧ n ≠ -1 ∧ n ≠ 0
      · rw [readArray_elements hr hn]
        refine Outcome.Tracks.array hr hn ?_ ?_
        · exact readElements_tracks (fun bs => ih) (by omega : rest.length ≤ fuel)
        · intro els rest' hrd
          obtain ⟨new, hnew, hlen⟩ := readElements_append hrd
          rw [hnew, List.nil_append, hlen]
      have hfl := flaw_array (h := h) hr
      have hle : rest.length ≤ (42 :: bs).length := by
        simp only [List.length_cons]
        omega
      have hn' : n = errInvChar ∨ n = -1 ∨ n = 0 := by
        by_contra hno
        rw [not_or, not_or] at hno
        exact hn hno
      rw [readArray, hr]
      -- refused, nil and empty: no elements are read
      rcases hn' with rfl | rfl | rfl
      · refine reject_tracks (by rw [skipItem_array, hr]; rfl) fun _ _ => ?_
        rw [hfl]
        simp [errInvChar]
      · refine item_tracks (by rw [skipItem_array, hr]; rfl) hle ?_
        rw [hfl]
        simp [Shape.flawed]
      · refine item_tracks (by rw [skipItem_array, hr]; rfl) hle ?_
        rw [hfl]
        simp [Shape.flawed]

/-- What the reader of a stream makes of its items. -/
theorem readRequest_tracks (s h : Bool) (bs : Bytes) :
    (readRequest s bs).Tracks s h (Shape.flawed h) false 1 (42 :: bs) :=
  readArray_tracks (Nat.lt_succ_self _)

end Tracks

end RedisImpl
