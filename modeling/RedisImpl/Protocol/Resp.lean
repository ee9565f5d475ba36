import RedisImpl.Protocol.RoundTrip

/-!
# RESP values

The values that a server may reply with, and their encoding. `Sequence k x`: the bytes `x` are the
encodings of `k` values in a row. Since no encoding is a prefix of another one
(`encode_append_inj`), the first value can be taken off: `sequence_append`, `sequence_array` and, for
a tree that a client sent, `sequence_encode`.
-/

namespace RedisImpl

/-- A simple string has no CR and no LF in it. -/
inductive Resp where
  | simple (s : Bytes) (plain : 13 ∉ s ∧ 10 ∉ s)
  | bulk (content : Bytes)
  | nil
  | array (els : List Resp)

namespace Resp

mutual

def encode : Resp → Bytes
  | simple s _ => 43 :: (s ++ [13, 10])
  | bulk content => 36 :: (decimal content.length ++ 13 :: 10 :: (content ++ [13, 10]))
  | nil => [36, 45, 49, 13, 10]
  | array els => 42 :: (decimal els.length ++ 13 :: 10 :: encodeList els)

def encodeList : List Resp → Bytes
  | [] => []
  | v :: vs => v.encode ++ encodeList vs

end

theorem encodeList_append (vs ws : List Resp) :
    encodeList (vs ++ ws) = encodeList vs ++ encodeList ws := by
  induction vs with
  | nil => rfl
  | cons v vs ih => rw [List.cons_append, encodeList, encodeList, ih, List.append_assoc]

/-- `x` is `k` values in a row. -/
def Sequence (k : Nat) (x : Bytes) : Prop := ∃ vs : List Resp, vs.length = k ∧ x = encodeList vs

/-- A reply that keeps client and server in step. -/
def OneValue (x : Bytes) : Prop := Sequence 1 x

theorem sequence_zero {x : Bytes} : Sequence 0 x ↔ x = [] := by
  constructor
  · rintro ⟨vs, hl, rfl⟩
    rw [List.length_eq_zero_iff.mp hl]
    rfl
  · rintro rfl
    exact ⟨[], rfl, rfl⟩

theorem sequence_succ {k : Nat} {x : Bytes} :
    Sequence (k + 1) x ↔ ∃ v y, x = encode v ++ y ∧ Sequence k y := by
  constructor
  · rintro ⟨vs, hl, rfl⟩
    cases vs with
    | nil => cases hl
    | cons v vs => exact ⟨v, encodeList vs, rfl, vs, Nat.succ.inj hl, rfl⟩
  · rintro ⟨v, y, rfl, vs, rfl, rfl⟩
    exact ⟨v :: vs, rfl, rfl⟩

theorem oneValue_iff {x : Bytes} : OneValue x ↔ ∃ v, x = encode v := by
  constructor
  · intro h
    obtain ⟨v, y, rfl, hy⟩ := sequence_succ.mp h
    exact ⟨v, by rw [sequence_zero.mp hy, List.append_nil]⟩
  · rintro ⟨v, rfl⟩
    exact ⟨[v], rfl, by simp [encodeList]⟩

theorem oneValue_encode (v : Resp) : OneValue v.encode := oneValue_iff.mpr ⟨v, rfl⟩

/-- What comes before the first `c` is known. -/
theorem append_cons_inj {c : UInt8} {s t x y : Bytes} (hs : c ∉ s) (ht : c ∉ t)
    (h : s ++ c :: x = t ++ c :: y) : s = t ∧ x = y := by
  have htake : ∀ {u : Bytes} (z : Bytes), c ∉ u → (u ++ c :: z).takeWhile (· ≠ c) = u := by
    intro u z hu
    have hp : ∀ a ∈ u, decide (a ≠ c) = true := fun a ha => by
      have : a ≠ c := fun he => hu (he ▸ ha)
      simpa using this
    rw [List.takeWhile_append_of_pos hp, List.takeWhile_cons_of_neg (by simp), List.append_nil]
  obtain rfl : s = t := by rw [← htake x hs, h, htake y ht]
  exact ⟨rfl, (List.cons.inj (List.append_cancel_left h)).2⟩

theorem cr_notMem_decimal (n : Nat) : 13 ∉ decimal n :=
  fun h => absurd (isDigit_of_mem_decimal h) (by decide)

/-- A size ends at its CR. -/
theorem decimal_inj {n m : Nat} {x y : Bytes}
    (h : decimal n ++ 13 :: x = decimal m ++ 13 :: y) : n = m ∧ x = y := by
  obtain ⟨hd, hx⟩ := append_cons_inj (cr_notMem_decimal n) (cr_notMem_decimal m) h
  have hv := congrArg value hd
  rw [value_decimal, value_decimal] at hv
  exact ⟨hv, hx⟩

/-- The first byte of a numeral is no minus sign. -/
theorem decimal_append_ne (n : Nat) (x y : Bytes) : decimal n ++ x ≠ 45 :: y := by
  intro h
  cases hd : decimal n with
  | nil => exact decimal_ne_nil n hd
  | cons c cs =>
    rw [hd] at h
    have hc : isDigit c = true := isDigit_of_mem_decimal (n := n) (hd ▸ List.mem_cons_self)
    rw [(List.cons.inj h).1] at hc
    exact absurd hc (by decide)

mutual

/-- No encoding is a prefix of another one. -/
theorem encode_append_inj (v w : Resp) {x y : Bytes} (h : v.encode ++ x = w.encode ++ y) :
    v = w ∧ x = y := by
  cases v <;> cases w <;>
    simp only [encode, List.cons_append, List.append_assoc, List.nil_append, List.cons.injEq,
      true_and] at h
  case simple.simple s hs t ht =>
    obtain ⟨rfl, hx⟩ := append_cons_inj hs.1 ht.1 h
    exact ⟨rfl, (List.cons.inj hx).2⟩
  case bulk.bulk b c =>
    obtain ⟨hl, h⟩ := decimal_inj h
    obtain ⟨rfl, hx⟩ := List.append_inj (List.cons.inj h).2 hl
    exact ⟨rfl, (List.cons.inj (List.cons.inj hx).2).2⟩
  case bulk.nil b => exact absurd h (decimal_append_ne _ _ _)
  case nil.bulk b => exact absurd h.symm (decimal_append_ne _ _ _)
  case nil.nil => exact ⟨rfl, h⟩
  case array.array vs ws =>
    obtain ⟨hl, h⟩ := decimal_inj h
    obtain ⟨rfl, hx⟩ := encodeList_append_inj vs ws hl (List.cons.inj h).2
    exact ⟨rfl, hx⟩
  all_goals exact absurd h.1 (by decide)

theorem encodeList_append_inj (vs ws : List Resp) {x y : Bytes} (hl : vs.length = ws.length)
    (h : encodeList vs ++ x = encodeList ws ++ y) : vs = ws ∧ x = y := by
  cases vs with
  | nil =>
    obtain rfl := List.length_eq_zero_iff.mp hl.symm
    exact ⟨rfl, h⟩
  | cons v vs =>
    cases ws with
    | nil => cases hl
    | cons w ws =>
      rw [encodeList, encodeList, List.append_assoc, List.append_assoc] at h
      obtain ⟨rfl, hrest⟩ := encode_append_inj v w h
      obtain ⟨rfl, hx⟩ := encodeList_append_inj vs ws (Nat.succ.inj hl) hrest
      exact ⟨rfl, hx⟩

end

/-- As a C string, a value with a NUL in it is no value. -/
theorem oneValue_cstr {x : Bytes} (h : OneValue x) : OneValue (cstr x) ↔ 0 ∉ x := by
  constructor
  · intro hc
    obtain ⟨v, rfl⟩ := oneValue_iff.mp h
    obtain ⟨w, hw⟩ := oneValue_iff.mp hc
    have hsplit : encode v ++ [] = encode w ++ (encode v).dropWhile (· ≠ 0) := by
      rw [List.append_nil, ← hw, cstr, List.takeWhile_append_dropWhile]
    obtain ⟨rfl, -⟩ := encode_append_inj v w hsplit
    exact hw ▸ zero_notMem_cstr _
  · intro hz
    rwa [cstr_eq_self hz]

/-- The first value can be taken off. -/
theorem sequence_append (v : Resp) {k : Nat} {x : Bytes} :
    Sequence (k + 1) (v.encode ++ x) ↔ Sequence k x := by
  rw [sequence_succ]
  constructor
  · rintro ⟨w, y, h, hy⟩
    obtain ⟨-, rfl⟩ := encode_append_inj v w h
    exact hy
  · exact fun h => ⟨v, x, rfl, h⟩

/-- An array is its size and as many values. -/
theorem sequence_array {n k : Nat} {x : Bytes} :
    Sequence (k + 1) (42 :: (decimal n ++ 13 :: 10 :: x)) ↔ Sequence (n + k) x := by
  constructor
  · intro h
    obtain ⟨v, y, hx, vs, rfl, rfl⟩ := sequence_succ.mp h
    cases v with
    | array els =>
      simp only [encode, List.cons_append, List.append_assoc, List.cons.injEq, true_and] at hx
      obtain ⟨rfl, hels⟩ := decimal_inj hx
      refine ⟨els ++ vs, List.length_append, ?_⟩
      rw [encodeList_append]
      exact (List.cons.inj hels).2
    | simple s hs => exact absurd (List.cons.inj hx).1 (by decide)
    | bulk content => exact absurd (List.cons.inj hx).1 (by decide)
    | nil => exact absurd (List.cons.inj hx).1 (by decide)
  · rintro ⟨vs, hl, rfl⟩
    have hlen : (vs.take n).length = n := by
      rw [List.length_take]
      omega
    refine sequence_succ.mpr ⟨array (vs.take n), encodeList (vs.drop n), ?_, vs.drop n, ?_, rfl⟩
    · rw [encode, hlen, List.cons_append, List.append_assoc, List.cons_append, List.cons_append,
        ← encodeList_append, List.take_append_drop]
    · rw [List.length_drop]
      omega

theorem sequence_bulk {k : Nat} {b x : Bytes} :
    Sequence (k + 1) (36 :: (decimal b.length ++ 13 :: 10 :: (b ++ 13 :: 10 :: x))) ↔
      Sequence k x := by
  have h : Sequence (k + 1) ((bulk b).encode ++ x) ↔ Sequence k x := sequence_append (bulk b)
  simpa only [encode, List.cons_append, List.append_assoc, List.nil_append] using h

/-- The first byte of a value is its type. -/
theorem sequence_head {k : Nat} {c : UInt8} {x : Bytes} (h : Sequence (k + 1) (c :: x)) :
    c = 43 ∨ c = 36 ∨ c = 42 := by
  obtain ⟨v, y, hx, -⟩ := sequence_succ.mp h
  cases v with
  | simple s hs => exact .inl (List.cons.inj hx).1
  | bulk content => exact .inr (.inl (List.cons.inj hx).1)
  | nil => exact .inr (.inl (List.cons.inj hx).1)
  | array els => exact .inr (.inr (List.cons.inj hx).1)

theorem not_sequence_nil (k : Nat) : ¬ Sequence (k + 1) [] := by
  intro h
  obtain ⟨v, y, hx, -⟩ := sequence_succ.mp h
  cases v <;> cases hx

mutual

/-- The encoding of a tree is one value. -/
theorem sequence_encode (n : Node) {k : Nat} {x : Bytes} :
    Sequence (k + 1) (n.encode ++ x) ↔ Sequence k x := by
  cases n with
  | bulk content =>
    simp only [Node.encode, List.cons_append, List.append_assoc, List.nil_append]
    exact sequence_bulk
  | array size els =>
    simp only [Node.encode, List.cons_append, List.append_assoc]
    exact sequence_array.trans (sequence_encodeList els)

theorem sequence_encodeList (ns : List Node) {k : Nat} {x : Bytes} :
    Sequence (ns.length + k) (Node.encodeList ns ++ x) ↔ Sequence k x := by
  cases ns with
  | nil =>
    rw [List.length_nil, Nat.zero_add]
    rfl
  | cons n ns =>
    rw [List.length_cons, Nat.add_right_comm, Node.encodeList, List.append_assoc]
    exact (sequence_encode n).trans (sequence_encodeList ns)

end

end Resp
end RedisImpl
