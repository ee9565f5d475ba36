import RedisImpl.Protocol.WellFormed

/-!
# The grammar of requests

`Wire node bs`: the bytes `bs` denote the tree `node`: `$`, a size, CRLF, that many bytes and CRLF,
or `*`, a size, CRLF and that many trees. A size is a run of digits, leading zeros allowed.

`onlyGrammar_iff`: the lexer accepts only such bytes, with the tree that they denote, and returns
NULL for everything else, if and only if none of the items that it comes to is broken.
-/

namespace RedisImpl

/-- `ds` is the number `n` in decimal. -/
structure SizeDigits (ds : Bytes) (n : Nat) : Prop where
  ne_nil : ds ≠ []
  digits : ∀ c ∈ ds, isDigit c = true
  value : value ds = n

mutual

def Wire : Node → Bytes → Prop
  | .bulk content, bs => ∃ ds, SizeDigits ds content.length ∧
      bs = 36 :: (ds ++ 13 :: 10 :: (content ++ [13, 10]))
  | .array size els, bs => ∃ ds body, size = els.length ∧ SizeDigits ds els.length ∧
      WireList els body ∧ bs = 42 :: (ds ++ 13 :: 10 :: body)

def WireList : List Node → Bytes → Prop
  | [], bs => bs = []
  | e :: es, bs => ∃ u v, Wire e u ∧ WireList es v ∧ bs = u ++ v

end

/-- An item whose size, as a decimal number, is not an `int`. -/
def large : Bytes → Bool
  | [] => false
  | c :: bs => (c = 36 || c = 42) && 2 ^ 31 ≤ value (bs.takeWhile isDigit)

section Sizes

variable {ds rest : Bytes}

theorem takeWhile_digits (h : ∀ c ∈ ds, isDigit c = true) (rest : Bytes) :
    (ds ++ 13 :: rest).takeWhile isDigit = ds := by
  rw [List.takeWhile_append_of_pos h, List.takeWhile_cons_of_neg (by decide), List.append_nil]

/-- A number that is an `int`. -/
theorem intValue_of_lt (h : value ds < 2 ^ 31) : intValue ds = value ds := by
  have hn : (BitVec.ofNat 32 (value ds)).toNat = value ds := by
    rw [BitVec.toNat_ofNat]
    omega
  rw [intValue, BitVec.toInt_eq_toNat_of_lt (by omega), hn]

/-- What precedes the rest of a stream whose item is not large. -/
theorem readSize_small {c : UInt8} {bs : Bytes} {n : Int} (hr : readSize bs = .size n rest)
    (hc : c = 36 ∨ c = 42) (hs : ¬ large (c :: bs) = true) (hn : n ≠ -1) :
    ∃ ds, SizeDigits ds n.toNat ∧ 0 ≤ n ∧ bs = ds ++ 13 :: 10 :: rest := by
  rcases readSize_eq_size hr with ⟨rfl, -⟩ | ⟨ds, hne, hd, rfl, rfl⟩
  · exact absurd rfl hn
  · have hsmall : value ds < 2 ^ 31 := by
      rw [large, takeWhile_digits hd] at hs
      rcases hc with rfl | rfl
      · simpa using hs
      · simpa using hs
    rw [intValue_of_lt hsmall]
    exact ⟨ds, ⟨hne, hd, by omega⟩, by omega, rfl⟩

end Sizes

/-! ## What is accepted is in the grammar -/

section Sound

variable {k K : Nat} {bs rest : Bytes}

/-- A bulk string that was read. -/
theorem readBulk_wire {b : Bytes} (hb : readBulk bs = .done b rest)
    (hs : ¬ large (36 :: bs) = true) :
    ∃ used, bs = used ++ rest ∧ Wire (.bulk b) (36 :: used) := by
  obtain ⟨n, r, hr, h0, -, rfl, hd⟩ := readBulk_eq_done hb
  obtain ⟨ds, hds, -, rfl⟩ := readSize_small hr (.inl rfl) hs (by omega)
  have hle : n.toNat ≤ r.length := by
    have hlen := congrArg List.length hd
    simp only [List.length_drop, List.length_cons] at hlen
    omega
  refine ⟨ds ++ 13 :: 10 :: (r.take n.toNat ++ [13, 10]), ?_, ds, ?_, rfl⟩
  · have hr' : r = r.take n.toNat ++ 13 :: 10 :: rest := by
      rw [← hd, List.take_append_drop]
    simp only [List.append_assoc, List.cons_append, List.nil_append]
    rw [← hr']
  · rwa [List.length_take_of_le hle]

/-- The elements that were read, if `rd` reads arrays in the grammar. -/
theorem readElements_wire {rd : Bytes → Outcome (Shape false)} {els els' : List (Shape false)}
    (hrd : ∀ {bs rest e K}, rd bs = .done e rest → ¬ Meets (large ·) (1 + K) (42 :: bs) →
      e.flawed true = false →
      (∃ used, bs = used ++ rest ∧ Wire e.toNode (42 :: used)) ∧ ¬ Meets (large ·) K rest)
    (hr : readElements rd k els bs = .done els' rest) (hm : ¬ Meets (large ·) (k + K) bs)
    (hc : Shape.flawedList true els' = false) :
    ∃ new used, els' = els ++ new ∧ bs = used ++ rest ∧ WireList (Shape.toNodes new) used ∧
      ¬ Meets (large ·) K rest := by
  induction k generalizing els bs with
  | zero =>
    cases hr
    rw [Nat.zero_add] at hm
    exact ⟨[], [], by simp, rfl, rfl, hm⟩
  | succ k ih =>
    obtain ⟨c, bs', e, mid, rfl, hitem, hr'⟩ := readElements_succ_eq_done hr
    have hk : k + 1 + K = k + K + 1 := by omega
    have hcons : ∀ {used : Bytes}, bs' = used ++ mid → Wire e.toNode (c :: used) →
        ¬ Meets (large ·) (k + K) mid →
        ∃ new used', els' = els ++ new ∧ c :: bs' = used' ++ rest ∧
          WireList (Shape.toNodes new) used' ∧ ¬ Meets (large ·) K rest := by
      rintro used rfl hw hmid
      obtain ⟨new, used', rfl, rfl, hws, hK⟩ := ih hr' hmid
      exact ⟨e :: new, c :: used ++ used', by simp, by simp, ⟨_, _, hw, hws, rfl⟩, hK⟩
    cases hitem with
    | bulk hb =>
      have hskip : skipItem (36 :: bs') = some (0, mid) := by rw [skipItem_bulk, hb]
      rw [hk, meets_skip hskip, Nat.zero_add, not_or] at hm
      obtain ⟨used, hused, hw⟩ := readBulk_wire hb hm.1
      exact hcons hused hw hm.2
    | array he =>
      have hce : e.flawed true = false := by
        obtain ⟨new, rfl, -⟩ := readElements_append hr'
        simp only [Shape.flawedList_append, Shape.flawedList, Bool.or_eq_false_iff] at hc
        exact hc.1.2.1
      rw [show k + 1 + K = 1 + (k + K) by omega] at hm
      obtain ⟨⟨used, hused, hw⟩, hmid⟩ := hrd he hm hce
      exact hcons hused hw hmid
    | stray _ hs => cases hs

/-- An array that was read. -/
theorem readArray_wire {fuel : Nat} {e : Shape false} (hr : readArray false fuel bs = .done e rest)
    (hm : ¬ Meets (large ·) (1 + K) (42 :: bs)) (hc : e.flawed true = false) :
    (∃ used, bs = used ++ rest ∧ Wire e.toNode (42 :: used)) ∧ ¬ Meets (large ·) K rest := by
  induction fuel generalizing bs rest e K with
  | zero => cases hr
  | succ fuel ih =>
    rw [readArray] at hr
    split at hr
    · cases hr
    · cases hr
    rename_i n mid hsize
    split at hr
    · cases hr
    split at hr
    · cases hr
      cases hc
    split at hr
    · cases hr
      cases hc
    rename_i h2 h1 h0
    split at hr
    · rename_i els rest' hels
      cases hr
      have hskip : skipItem (42 :: bs) = some ((BitVec.ofInt 32 n).toNat, mid) := by
        rw [skipItem_array, hsize]
        simp only [h2, h1, if_false]
      rw [Nat.add_comm 1 K, meets_skip hskip, not_or] at hm
      obtain ⟨ds, hds, hn, rfl⟩ := readSize_small hsize (.inr rfl) hm.1 h1
      rw [Shape.flawed, Bool.or_eq_false_iff] at hc
      obtain ⟨new, used, rfl, rfl, hw, hK⟩ := readElements_wire ih hels hm.2 hc.2
      have hlen : n = ((Shape.toNodes els).length : Int) := by
        rw [Shape.toNodes_length]
        simpa using hc.1
      refine ⟨⟨ds ++ 13 :: 10 :: used, by simp, ds, used, hlen, ?_, hw, rfl⟩, hK⟩
      rwa [← Int.toNat_natCast (Shape.toNodes els).length, ← hlen]
    · cases hr
    · cases hr

end Sound

/-! ## Everything else is refused -/

section Refused

variable {bs : Bytes} {k : Nat}

theorem meets_or {P Q : Bytes → Prop} (h : Meets (fun bs => P bs ∨ Q bs) k bs) :
    Meets P k bs ∨ Meets Q k bs := by
  induction h with
  | here hp => exact hp.imp .here .here
  | later hs _ ih => exact ih.imp (.later hs) (.later hs)

theorem meets_broken : Meets (broken ·) k bs ↔ Meets (flaw false ·) k bs := by
  have hiff : ∀ bs, broken bs = true ↔ flaw false bs = true := by
    intro bs
    simp [flaw]
  exact ⟨Meets.mono fun bs => (hiff bs).mp, Meets.mono fun bs => (hiff bs).mpr⟩

/-- An array whose size is negative as an `int` has a size that is not an `int`. -/
theorem large_of_huge (h : huge bs = true) : large bs = true := by
  cases bs with
  | nil => cases h
  | cons c bs =>
    simp only [huge, Bool.and_eq_true, decide_eq_true_eq] at h
    obtain ⟨rfl, h⟩ := h
    by_contra hs
    cases hr : readSize bs with
    | bad =>
      rw [hr] at h
      cases h
    | long =>
      rw [hr] at h
      cases h
    | size n rest =>
      rw [hr] at h
      have hn : n < -2 := of_decide_eq_true h
      obtain ⟨ds, -, h0, -⟩ := readSize_small hr (.inr rfl) hs (by omega)
      omega

/-- Whatever the memory and the uninitialised variable hold, the lexer returns; and if it returns a
tree, the bytes that it took are in the grammar and denote this tree. -/
def OnlyGrammar (bs : Bytes) : Prop :=
  ∀ unset heap, ∃ r v, lexer unset ⟨heap, bs⟩ = .ok (r, v) ∧ ∀ p, r = some p →
    ∃ node used, bs = used ++ v.inp ∧ Wire node (42 :: used) ∧ Laid v.heap none none node p

theorem onlyGrammar_of_unbroken (hs : ¬ Meets (large ·) 1 (42 :: bs))
    (hb : ¬ Meets (broken ·) 1 (42 :: bs)) : OnlyGrammar bs := by
  intro unset heap
  have hfault := readRequest_tracks false false bs
  have htrue := readRequest_tracks false true bs
  have hflaw : ¬ Meets (flaw true ·) 1 (42 :: bs) := by
    intro hm
    have hor := meets_or (hm.mono fun bs hf => ((flaw_eq_or true bs).mp hf).imp_right And.right)
    rcases hor with hm | hm
    · exact hb hm
    · exact hs (hm.mono fun bs => large_of_huge)
  cases hr : readRequest false bs with
  | done e rest =>
    rw [hr] at htrue
    obtain ⟨-, hf, -⟩ := htrue
    have hc : e.flawed true = false := by
      rw [← Bool.not_eq_true]
      intro hc
      exact hflaw (((hf 0).mpr (.inl hc)).resolve_left (by simp))
    obtain ⟨p, h, hrun, hlaid, -⟩ := lexer_unflawed unset (w := ⟨heap, bs⟩) hr hc
    obtain ⟨⟨used, hused, hw⟩, -⟩ := readArray_wire (K := 0) hr hs hc
    refine ⟨_, _, hrun, fun q hq => ?_⟩
    cases hq
    exact ⟨e.toNode, used, hused, hw, hlaid⟩
  | reject =>
    have href := lexer_refines_false unset ⟨heap, bs⟩ [] none none (Heap.Owns.nil heap)
    rw [show readRequest false (⟨heap, bs⟩ : World).inp = .reject from hr] at href
    obtain ⟨v, hrun, -⟩ := href rfl
    refine ⟨none, v, hrun, fun p hp => ?_⟩
    cases hp
  | fault =>
    rw [hr] at hfault
    exact absurd (meets_broken.mpr ((hfault.2 rfl rfl 0).resolve_left (by simp))) hb

theorem unbroken_of_onlyGrammar (hg : OnlyGrammar bs) : ¬ Meets (broken ·) 1 (42 :: bs) := by
  intro hm
  rw [meets_broken] at hm
  have ht := readRequest_tracks false false bs
  have href := lexer_refines_false (fun w => some (w.heap.size + 2)) ⟨Heap.empty, bs⟩ [] none none
    (Heap.Owns.nil _)
  cases hr : readRequest false bs with
  | done e rest =>
    rw [hr] at ht
    obtain ⟨-, -, hacc⟩ := ht
    refine unflawed_of_laid (fun unset heap p v hrun => ?_) ((hacc 0 rest).mpr (.done rest))
      (hm.mono fun bs hf => ?_)
    · obtain ⟨r, v', hrun', htree⟩ := hg unset heap
      rw [hrun] at hrun'
      cases hrun'
      obtain ⟨node, -, -, -, hlaid⟩ := htree p rfl
      exact ⟨node, hlaid⟩
    · rw [flaw_eq_or] at hf ⊢
      exact .inl (hf.resolve_right fun hx => by cases hx.1)
  | reject =>
    rw [hr] at ht
    exact ht.2 rfl rfl 0 (.inr hm)
  | fault =>
    rw [show readRequest false (⟨Heap.empty, bs⟩ : World).inp = .fault from hr] at href
    obtain ⟨e, hrun⟩ := href rfl (fun w => rfl)
    obtain ⟨r, v, hrun', -⟩ := hg (fun w => some (w.heap.size + 2)) Heap.empty
    rw [hrun] at hrun'
    cases hrun'

/-- The lexer accepts only its grammar, for a message whose sizes are all below `2^31`, if and only
if none of its items is broken: no type byte other than `$` and `*`, no nil bulk string, no empty
or nil array, no size of more than 8191 digits. -/
theorem onlyGrammar_iff (bs : Bytes) (hs : ¬ Meets (large ·) 1 (42 :: bs)) :
    OnlyGrammar bs ↔ ¬ Meets (broken ·) 1 (42 :: bs) :=
  ⟨unbroken_of_onlyGrammar, onlyGrammar_of_unbroken hs⟩

theorem onlyGrammar_iff_plus :
    OnlyGrammar (ascii "1\r\n+") ↔ ¬ Meets (broken ·) 1 (42 :: ascii "1\r\n+") := by
  refine onlyGrammar_iff _ ?_
  have h1 : skipItem (42 :: ascii "1\r\n+") = some (1, [43]) := by decide
  have h2 : skipItem [43] = some (0, []) := by decide
  rw [meets_skip h1]
  rintro (h | h)
  · cases h
  · cases (meets_skip h2).mp h with
    | inl h => cases h
    | inr h => exact not_meets_zero h

/-- `*1` and `+`, where `current` holds an address with no record. -/
theorem plus_not_onlyGrammar : ¬ OnlyGrammar (ascii "1\r\n+") := by
  intro hg
  obtain ⟨r, v, hrun, -⟩ := hg (fun _ => some 7) Heap.empty
  cases hrun

end Refused

end RedisImpl
