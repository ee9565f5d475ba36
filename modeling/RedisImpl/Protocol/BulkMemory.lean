import RedisImpl.Platform
import RedisImpl.Protocol.Refine
import RedisImpl.Protocol.SizeValue

/-!
# The memory of `lex_bulk_str`

What `lex_bulk_str` writes, by the size that `get_el_size` gave it. `bulkMemory_iff`: it is as it
should be, except in three cases. A run of 8192 digits or more leads `get_el_size` out of its own
buffer. For the nil size, `new_bulk_str` terminates a content of NULL. For the other negative sizes
the code does not give up but goes on to read the payload: as a `size_t` the size of the buffer is
larger than any object, `calloc` gives NULL, and `recv` is asked to store there.
-/

namespace RedisImpl

open Heap

/-- The number of bytes that `lex_bulk_str` asks `read_exact_bytes` for, where it comes to that. -/
def payloadRead (strSize : Int) : Option Nat :=
  if strSize = errInvChar then none
  else if strSize = 0 then none
  else if strSize = -1 then none
  else if strSize > protoMaxBulkSize then none
  else some (sizeT strSize)

section Sizes

variable {w v : World} {n : Int} {len : Nat}

theorem payloadRead_eq_some : payloadRead n = some len ↔
    n ≠ errInvChar ∧ n ≠ 0 ∧ n ≠ -1 ∧ n ≤ protoMaxBulkSize ∧ sizeT n = len := by
  unfold payloadRead
  split_ifs with h1 h2 h3 h4
  · simp [h1]
  · simp [h2]
  · simp [h3]
  · simp [not_le.mpr h4]
  · simp [h1, h2, h3, not_lt.mp h4]

/-- The sizes that `get_el_size` returns are numbers of type `int`. -/
theorem getElSize_bounds (h : getElSize w = .ok (n, v)) : -2 ^ 31 ≤ n ∧ n < 2 ^ 31 := by
  obtain ⟨-, rfl | ⟨rfl, -⟩ | ⟨ds, -, rfl⟩⟩ := getElSize_cases h
  · decide
  · decide
  · exact ⟨BitVec.le_toInt _, BitVec.toInt_lt⟩

/-- Where `lex_bulk_str` reads a payload, it is into what `calloc` gave for the size. -/
theorem lexBulkStr_of_payloadRead (hg : getElSize w = .ok (n, v)) (h : payloadRead n = some len) :
    lexBulkStr w = lexPayload n (calloc (sizeT (n + 1))) len v := by
  obtain ⟨h1, h2, h3, h4, rfl⟩ := payloadRead_eq_some.mp h
  obtain ⟨hlo, hhi⟩ := getElSize_bounds hg
  refine (M.bind_ok hg).trans ?_
  rw [if_neg h1, if_neg h2, if_neg h3, if_neg (not_lt.mpr h4)]
  by_cases h0 : n < 0
  · rw [if_pos h0, calloc_of_neg (by omega) hlo]
    rfl
  · rw [if_neg h0, calloc_of_nonneg (by omega) hhi, sizeT_of_nonneg (by omega) (by omega)]
    rfl

end Sizes

/-- The blocks of a bulk string: the record, its `BaseNode`, and a buffer of one byte more than the
payload, with the payload at the indices from 0 on and the terminator behind it. -/
def bulkBlocks (p node content : Nat) (payload : Bytes) : List (Nat × Cell) :=
  [(node, .base ⟨.bulkStr, none, none⟩), (p, .bulk (some node) (some content) payload.length),
    (content, .chars (payload ++ [0]))]

/-- What `lex_bulk_str` does to the memory after a size, with the blocks `F` that were there: it fills
a buffer that it allocated and leaves `F` alone, or returns NULL, in the state `v` if no payload was to
be read. -/
structure SizeMemory (w v : World) (n : Int) (F : List (Nat × Cell)) : Prop where
  payload : 0 ≤ n → n ≤ protoMaxBulkSize →
    (∃ p node content u, lexBulkStr w = .ok (some p, u) ∧ (v.inp.take n.toNat).length = n ∧
      Owns u.heap (bulkBlocks p node content (v.inp.take n.toNat) ++ F)) ∨
    ∃ u, lexBulkStr w = .ok (none, u) ∧ Owns u.heap F
  nil : n = -1 → ∃ p node u, lexBulkStr w = .ok (some p, u) ∧
    Owns u.heap ((node, .base ⟨.bulkStr, none, none⟩) :: (p, .bulk (some node) none (-1)) :: F)
  other : n < -1 ∨ protoMaxBulkSize < n → lexBulkStr w = .ok (none, v) ∧ payloadRead n = none

/-- `lex_bulk_str` fills and terminates only memory that it allocated, whatever the stream begins
with: it comes to a size without leaving the buffer of `get_el_size`, and after the size the memory is
as it should be. -/
def BulkMemory (bs : Bytes) : Prop :=
  ∀ heap F, Owns heap F → ∃ n v, getElSize ⟨heap, bs⟩ = .ok (n, v) ∧ SizeMemory ⟨heap, bs⟩ v n F

/-- The stream begins with fewer than 8192 digits. -/
def ShortPrefix (bs : Bytes) : Prop := (bs.takeWhile isDigit).length < maxArraySize

/-- The stream does not begin with the nil size, nor with digits whose number is negative as an `int`
and not the code for an error. -/
def NoNegativeSize (bs : Bytes) : Prop :=
  (∀ rest, bs ≠ 45 :: 49 :: 13 :: 10 :: rest) ∧
    ∀ ds rest, Prefixed bs ds rest →
      value ds % 2 ^ 32 < 2 ^ 31 ∨ value ds % 2 ^ 32 = 2 ^ 32 - 2

section Memory

variable {w v : World} {n : Int} {F : List (Nat × Cell)}

/-- A size from 0 to the limit. -/
theorem memory_payload (hg : getElSize w = .ok (n, v)) (ho : Owns w.heap F) (h0 : 0 ≤ n)
    (hmax : n ≤ protoMaxBulkSize) :
    (∃ p node content u, lexBulkStr w = .ok (some p, u) ∧ (v.inp.take n.toNat).length = n ∧
      Owns u.heap (bulkBlocks p node content (v.inp.take n.toNat) ++ F)) ∨
    ∃ u, lexBulkStr w = .ok (none, u) ∧ Owns u.heap F := by
  rw [show v = ⟨w.heap, v.inp⟩ from congrArg (World.mk · v.inp) (getElSize_cases hg).1] at hg
  obtain ⟨k, rfl⟩ := Int.eq_ofNat_of_zero_le h0
  rw [protoMaxBulkSize] at hmax
  have hlex := lexBulkStr_sized false ⟨0, 0⟩ (by omega) ho hg
  cases hc : afterCrlf (v.inp.drop k) with
  | none =>
    rw [hc] at hlex
    exact .inr hlex
  | some rest' =>
    rw [hc] at hlex
    obtain ⟨p, node, content, heap, hr, hown⟩ := hlex
    refine .inl ⟨p, node, content, _, hr, ?_, hown⟩
    have hlen := congrArg List.length (afterCrlf_eq_some.mp hc)
    rw [List.length_drop, List.length_cons] at hlen
    rw [Int.toNat_natCast, List.length_take_of_le (by omega)]

/-- The memory is as it should be exactly after the sizes that are not negative, and the code for an
error. -/
theorem sizeMemory_iff (hg : getElSize w = .ok (n, v)) (ho : Owns w.heap F) :
    SizeMemory w v n F ↔ n = errInvChar ∨ 0 ≤ n := by
  constructor
  · intro hm
    by_contra hn
    rw [not_or, not_le] at hn
    -- `-1` is returned as no error, and below it the number of bytes to read wraps around
    by_cases h1 : n = -1
    · obtain ⟨p, node, u, hr, -⟩ := hm.nil h1
      subst h1
      rw [show lexBulkStr w = .error .dangling from (M.bind_ok hg).trans rfl] at hr
      cases hr
    · have hread := (hm.other (.inl (by omega))).2
      have hsome : payloadRead n = some (sizeT n) := payloadRead_eq_some.mpr
        ⟨hn.1, by omega, h1, by rw [protoMaxBulkSize]; omega, rfl⟩
      rw [hsome] at hread
      cases hread
  · intro hn
    refine ⟨fun h0 hmax => memory_payload hg ho h0 hmax, fun h1 => ?_, fun ho => ?_⟩
    · rw [errInvChar] at hn
      omega
    · have hcases : n = errInvChar ∨ protoMaxBulkSize < n := by
        rcases hn with hn | hn
        · exact .inl hn
        · exact .inr (ho.resolve_left (by omega))
      rcases hcases with h2 | hmax
      · exact ⟨(M.bind_ok hg).trans (by rw [if_pos h2]; rfl), if_pos h2⟩
      · have hpos : ¬ n = errInvChar ∧ ¬ n = 0 ∧ ¬ n = -1 := by
          rw [protoMaxBulkSize] at hmax
          rw [errInvChar]
          omega
        obtain ⟨h2, h0, h1⟩ := hpos
        refine ⟨(M.bind_ok hg).trans ?_, ?_⟩
        · rw [if_neg h2, if_neg h0, if_neg h1, if_pos hmax]
          rfl
        · rw [payloadRead, if_neg h2, if_neg h0, if_neg h1, if_pos hmax]

end Memory

/-- When the number is not negative as an `int`. -/
theorem intValue_nonneg {ds : Bytes} : 0 ≤ intValue ds ↔ value ds % 2 ^ 32 < 2 ^ 31 := by
  rw [intValue, BitVec.toInt_eq_toNat_cond, BitVec.toNat_ofNat]
  split <;> omega

/-- The size of the stream is not negative, or the code for an error. -/
theorem noNegativeSize_iff {bs : Bytes} : NoNegativeSize bs ↔
    ∀ heap n v, getElSize ⟨heap, bs⟩ = .ok (n, v) → n = errInvChar ∨ 0 ≤ n := by
  constructor
  · rintro ⟨hnil, hdigits⟩ heap n v hg
    obtain ⟨-, hn | ⟨-, hbs⟩ | ⟨ds, hp, rfl⟩⟩ := getElSize_cases hg
    · exact .inl hn
    · exact absurd hbs (hnil v.inp)
    · rw [intValue_eq_err, intValue_nonneg]
      exact (hdigits ds v.inp hp).symm
  · intro h
    constructor
    · rintro rest rfl
      have hr := getElSize_eq ⟨Heap.empty, 45 :: 49 :: 13 :: 10 :: rest⟩
      have hn := h Heap.empty (-1) _ hr
      exact absurd hn (by decide)
    · intro ds rest hp
      have hn := h Heap.empty (intValue ds) ⟨Heap.empty, rest⟩
        (by rw [hp.eq, getElSize_digits hp.ne_nil hp.digits hp.length])
      rw [intValue_eq_err, intValue_nonneg] at hn
      exact hn.symm

/-- The memory of `lex_bulk_str` is as it should be exactly when the size has fewer than 8192 digits,
and is not negative or taken for the code of an error. -/
theorem bulkMemory_iff (bs : Bytes) : BulkMemory bs ↔ ShortPrefix bs ∧ NoNegativeSize bs := by
  rw [noNegativeSize_iff]
  have hown (heap : Heap Cell) : Owns heap [] := ⟨List.nodup_nil, by simp⟩
  constructor
  · intro h
    refine ⟨?_, fun heap n v hg => ?_⟩
    · obtain ⟨n, v, hg, -⟩ := h Heap.empty [] (hown _)
      exact getElSize_returns_iff.mp ⟨n, v, hg⟩
    · obtain ⟨n', v', hg', hm⟩ := h heap [] (hown _)
      rw [hg] at hg'
      cases hg'
      exact (sizeMemory_iff hg (hown _)).mp hm
  · rintro ⟨hshort, hsize⟩ heap F ho
    obtain ⟨n, v, hg⟩ : ∃ n v, getElSize ⟨heap, bs⟩ = .ok (n, v) := getElSize_returns_iff.mpr hshort
    exact ⟨n, v, hg, (sizeMemory_iff hg ho).mpr (hsize heap n v hg)⟩

/-- The nil bulk string. -/
theorem nilBulk_not_bulkMemory : ¬ BulkMemory (ascii "-1\r\n") := by
  intro h
  have hown : Owns (Heap.empty : Heap Cell) [] := ⟨List.nodup_nil, by simp⟩
  have hsize : getElSize ⟨Heap.empty, ascii "-1\r\n"⟩ = .ok (-1, ⟨Heap.empty, []⟩) := rfl
  obtain ⟨n, v, hg, hm⟩ := h Heap.empty [] hown
  rw [hsize] at hg
  cases hg
  obtain ⟨p, node, u, hr, -⟩ := hm.nil rfl
  rw [show lexBulkStr ⟨Heap.empty, ascii "-1\r\n"⟩ = .error .dangling from rfl] at hr
  cases hr

end RedisImpl
