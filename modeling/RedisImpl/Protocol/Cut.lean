import RedisImpl.Protocol.RoundTrip

/-!
# Messages that are cut

More bytes at the end of a stream do not change the items that were read of it, so what goes wrong in
a part of a message goes wrong in the message too: `Meets.append`. Hence nothing does in a part of a
request, wherever it is cut (`unbroken_of_cut`).
-/

namespace RedisImpl

open Node

section Append

variable {bs rest more : Bytes}

theorem length_takeWhile_le_append (p : UInt8 → Bool) (bs more : Bytes) :
    (bs.takeWhile p).length ≤ ((bs ++ more).takeWhile p).length := by
  rw [List.takeWhile_append]
  split
  · rename_i h
    rw [h, List.length_append]
    omega
  · exact Nat.le_refl _

theorem readSize_long_append (h : readSize bs = .long) : readSize (bs ++ more) = .long := by
  rw [readSize_eq_long] at h ⊢
  exact h.trans (length_takeWhile_le_append _ _ _)

theorem readSize_append {n : Int} (h : readSize bs = .size n rest) :
    readSize (bs ++ more) = .size n (rest ++ more) := by
  rcases readSize_eq_size h with ⟨rfl, rfl⟩ | ⟨ds, hne, hds, rfl, rfl⟩
  · rfl
  · have hlen : ds.length < maxArraySize := by
      by_contra hlong
      have htake : ds.length ≤ ((ds ++ 13 :: 10 :: rest).takeWhile isDigit).length := by
        have := length_takeWhile_le_append isDigit ds (13 :: 10 :: rest)
        rwa [List.takeWhile_eq_self_iff.mpr hds] at this
      rw [readSize_eq_long.mpr (by omega)] at h
      cases h
    rw [List.append_assoc]
    exact readSize_digits hne hds hlen (rest ++ more)

theorem readBulk_append {b : Bytes} (h : readBulk bs = .done b rest) :
    readBulk (bs ++ more) = .done b (rest ++ more) := by
  obtain ⟨n, r, hr, h0, hmax, rfl, hd⟩ := readBulk_eq_done h
  have hle : n.toNat ≤ r.length := by
    have := congrArg List.length hd
    simp only [List.length_drop, List.length_cons] at this
    omega
  have hcrlf : afterCrlf ((r ++ more).drop n.toNat) = some (rest ++ more) := by
    rw [List.drop_append_of_le_length hle, hd]
    exact afterCrlf_eq_some.mpr rfl
  rw [readBulk, readSize_append hr]
  simp only []
  rw [if_neg (by unfold errInvChar; omega), if_neg (by omega), if_neg (by omega), hcrlf,
    List.take_append_of_le_length hle]

theorem skipItem_append {n : Nat} (h : skipItem bs = some (n, rest)) :
    skipItem (bs ++ more) = some (n, rest ++ more) := by
  cases bs with
  | nil => cases h
  | cons c bs =>
    rw [List.cons_append]
    by_cases h36 : c = 36
    · subst h36
      rw [skipItem_bulk] at h ⊢
      cases hb : readBulk bs with
      | done b rest' =>
        rw [hb] at h
        cases h
        rw [readBulk_append hb]
      | reject =>
        rw [hb] at h
        cases h
      | fault =>
        rw [hb] at h
        cases h
    by_cases h42 : c = 42
    · subst h42
      rw [skipItem_array] at h ⊢
      cases hr : readSize bs with
      | size m rest' =>
        rw [hr] at h
        rw [readSize_append hr]
        simp only [] at h ⊢
        split_ifs at h ⊢ <;> cases h <;> rfl
      | bad =>
        rw [hr] at h
        cases h
      | long =>
        rw [hr] at h
        cases h
    · rw [skipItem_stray h36 h42] at h ⊢
      cases h
      rfl

theorem broken_append (h : broken bs = true) : broken (bs ++ more) = true := by
  cases bs with
  | nil => cases h
  | cons c bs =>
    rw [List.cons_append]
    simp only [broken] at h ⊢
    cases hr : readSize bs with
    | bad =>
      rw [hr] at h
      split_ifs at h ⊢
      rfl
    | long =>
      rw [hr] at h
      rw [readSize_long_append hr]
      exact h
    | size n rest =>
      rw [hr] at h
      rw [readSize_append hr]
      exact h

/-- What is met in a part of a message is met in the message. -/
theorem Meets.append {P : Bytes → Prop} (hp : ∀ bs, P bs → P (bs ++ more)) {k : Nat}
    (h : Meets P k bs) : Meets P k (bs ++ more) := by
  induction h with
  | here h => exact .here (hp _ h)
  | later hs _ ih => exact .later (skipItem_append hs) ih

end Append

/-- A part of a request. -/
theorem unbroken_of_cut {size : Int} {els : List Node} (hr : (Node.array size els).Request)
    {bs more : Bytes} (hb : (Node.array size els).encode.tail = bs ++ more) :
    ¬ Meets (broken ·) 1 (42 :: bs) := by
  intro hm
  have htracks := readRequest_tracks false true ((Node.array size els).encode.tail ++ [])
  rw [readRequest_encode hr] at htracks
  obtain ⟨-, hiff, -⟩ := htracks
  have hflaw : Meets (flaw true ·) 1 (42 :: bs ++ more) :=
    (hm.append fun bs h => broken_append h).mono fun bs h => flaw_eq_or true bs |>.mpr (.inl h)
  rw [List.append_nil, hb] at hiff
  rcases (hiff 0).mp (.inr hflaw) with hf | hf
  · rw [flawed_toShape _ hr] at hf
    cases hf
  · exact not_meets_zero hf

end RedisImpl
