import RedisImpl.Protocol.Grammar

/-!
# The value of a size

`get_el_size` gives an `int` for a run of digits of any length: the number modulo `2^32`, which may
be one that was not sent, or one of its own codes for an error and for nil.

`sizeExact_iff`: sizes mean what they say, and those that are too large are refused, if and only if
the number is below `2^31` or happens to be the code for an error.
-/

namespace RedisImpl

/-- The digits `ds` and CRLF are the beginning of the stream `bs`, and fit into the buffer. -/
structure Prefixed (bs ds rest : Bytes) : Prop where
  ne_nil : ds ≠ []
  digits : ∀ c ∈ ds, isDigit c = true
  length : ds.length < maxArraySize
  eq : bs = ds ++ 13 :: 10 :: rest

section Value

variable {ds rest : Bytes} {heap : Heap Cell}

/-- The number as an `int` is the code for an error. -/
theorem intValue_eq_err : intValue ds = errInvChar ↔ value ds % 2 ^ 32 = 2 ^ 32 - 2 := by
  rw [intValue, errInvChar, BitVec.toInt_eq_toNat_cond, BitVec.toNat_ofNat]
  split <;> omega

/-- A prefix that is too long for the buffer is no size. -/
theorem length_of_readSize {n : Int} {rest' : Bytes} (hd : ∀ c ∈ ds, isDigit c = true) (hne : ds ≠ [])
    (hr : readSize (ds ++ 13 :: 10 :: rest) = .size n rest') : ds.length < maxArraySize := by
  unfold readSize at hr
  rw [takeWhile_digits hd, if_neg hne] at hr
  by_contra hlen
  rw [if_pos (by omega)] at hr
  cases hr

theorem getElSize_digits (hne : ds ≠ []) (hd : ∀ c ∈ ds, isDigit c = true)
    (hlen : ds.length < maxArraySize) :
    getElSize ⟨heap, ds ++ 13 :: 10 :: rest⟩ = .ok (intValue ds, ⟨heap, rest⟩) := by
  have hr := getElSize_eq ⟨heap, ds ++ 13 :: 10 :: rest⟩
  rw [show readSize (⟨heap, ds ++ 13 :: 10 :: rest⟩ : World).inp = .size (intValue ds) rest from
    readSize_digits hne hd hlen rest] at hr
  exact hr

/-- What `get_el_size` returns, and on which streams: the code for an error, or nil, or the value of
the digits. The heap is left alone. -/
theorem getElSize_cases {w v : World} {n : Int} (h : getElSize w = .ok (n, v)) :
    v.heap = w.heap ∧ (n = errInvChar ∨ n = -1 ∧ w.inp = 45 :: 49 :: 13 :: 10 :: v.inp ∨
      ∃ ds, Prefixed w.inp ds v.inp ∧ n = intValue ds) := by
  have hr := getElSize_eq w
  cases hs : readSize w.inp with
  | bad =>
    rw [hs] at hr
    obtain ⟨rest, hr⟩ := hr
    rw [h] at hr
    cases hr
    exact ⟨rfl, .inl rfl⟩
  | long =>
    rw [hs, SizePrefix.Read, h] at hr
    cases hr
  | size m rest =>
    rw [hs, SizePrefix.Read, h] at hr
    cases hr
    refine ⟨rfl, .inr ?_⟩
    rcases readSize_eq_size hs with hnil | ⟨ds, hne, hd, hn, hbs⟩
    · exact .inl hnil
    · rw [hbs] at hs
      exact .inr ⟨ds, ⟨hne, hd, length_of_readSize hd hne hs, hbs⟩, hn⟩

end Value

/-- Sizes mean what they say: a number below `2^31` is what `get_el_size` returns, for any other it
reports an error, so that no array and no bulk string is read, and -1 is returned for `-1` only. -/
def SizeExact (bs : Bytes) : Prop :=
  (∀ heap v, getElSize ⟨heap, bs⟩ = .ok (-1, v) → ∃ rest, bs = 45 :: 49 :: 13 :: 10 :: rest) ∧
    ∀ ds rest, Prefixed bs ds rest → ∀ heap unset,
      (value ds < 2 ^ 31 → getElSize ⟨heap, bs⟩ = .ok ((value ds : Int), ⟨heap, rest⟩)) ∧
      (2 ^ 31 ≤ value ds → ∃ v, getElSize ⟨heap, bs⟩ = .ok (errInvChar, v) ∧
        lexBulkStr ⟨heap, bs⟩ = .ok (none, v) ∧ lexer unset ⟨heap, bs⟩ = .ok (none, v))

theorem sizeExact_iff (bs : Bytes) :
    SizeExact bs ↔ ∀ ds rest, Prefixed bs ds rest →
      value ds < 2 ^ 31 ∨ value ds % 2 ^ 32 = 2 ^ 32 - 2 := by
  constructor
  · rintro ⟨-, hx⟩ ds rest hp
    by_cases hv : value ds < 2 ^ 31
    · exact .inl hv
    · right
      obtain ⟨-, hlarge⟩ := hx ds rest hp Heap.empty fun _ => none
      obtain ⟨v, hg, -⟩ := hlarge (by omega)
      rw [hp.eq, getElSize_digits hp.ne_nil hp.digits hp.length] at hg
      rw [← intValue_eq_err]
      exact congrArg Prod.fst (Except.ok.inj hg)
  · intro hx
    refine ⟨fun heap v h => ?_, fun ds rest hp heap unset => ⟨fun hv => ?_, fun hv => ?_⟩⟩
    · obtain ⟨-, hn | ⟨-, hnil⟩ | ⟨ds, hp, hn⟩⟩ := getElSize_cases h
      · cases hn
      · exact ⟨v.inp, hnil⟩
      · rcases hx ds v.inp hp with hv | hv
        · rw [intValue_of_lt hv] at hn
          omega
        · rw [intValue_eq_err.mpr hv] at hn
          cases hn
    · rw [hp.eq, getElSize_digits hp.ne_nil hp.digits hp.length, intValue_of_lt hv]
    · have hg : getElSize ⟨heap, bs⟩ = .ok (errInvChar, ⟨heap, rest⟩) := by
        rw [hp.eq, getElSize_digits hp.ne_nil hp.digits hp.length,
          intValue_eq_err.mpr ((hx ds rest hp).resolve_left (by omega))]
      exact ⟨_, hg, M.bind_ok hg, M.bind_ok hg⟩

/-- The number `2^32` is taken for an empty string or array. -/
theorem twoPow_not_sizeExact : ¬ SizeExact (ascii "4294967296\r\n") := by
  intro hx
  have hp : Prefixed (ascii "4294967296\r\n") (ascii "4294967296") [] :=
    ⟨by decide, List.all_eq_true.mp rfl, by decide, by decide⟩
  obtain ⟨-, hlarge⟩ := hx.2 _ _ hp Heap.empty fun _ => none
  obtain ⟨v, hg, -⟩ := hlarge (by decide)
  rw [hp.eq, getElSize_digits hp.ne_nil hp.digits hp.length] at hg
  have hn : intValue (ascii "4294967296") = errInvChar := congrArg Prod.fst (Except.ok.inj hg)
  rw [intValue_eq_err] at hn
  revert hn
  decide

end RedisImpl
