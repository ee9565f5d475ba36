import RedisImpl.Protocol.Memory
import RedisImpl.Util

/-!
# Size prefixes

`getElSize` is `get_el_size`: a state machine that reads a size prefix byte by byte into a buffer.
At the end of the stream `recv` leaves the buffer alone and the machine looks at the old byte.
`readSize` says what that comes to: a run of digits, or `-1`, and CRLF (`getElSize_eq`).

The buffer has 8192 bytes, and the machine stores a byte before it checks the length: a run of 8192
digits ends outside of it.
-/

namespace RedisImpl

/-- `MAX_ARRAY_SIZE`. -/
def maxArraySize : Nat := 8192

/-- `ERR_INV_CHAR` and `ERR_ARRAY_OVERFLOW`. -/
def errInvChar : Int := -2

/-- `buf[i]`, in a buffer that was filled up to some byte and is zero from there. -/
def bufAt (buf : Bytes) (i : Nat) : UInt8 := buf.getD i 0

/-- `buf[i] = c`. -/
def bufPut (buf : Bytes) (i : Nat) (c : UInt8) : Bytes :=
  buf.take i ++ List.replicate (i - buf.length) 0 ++ c :: buf.drop (i + 1)

/-- `recv(fd, &buf[i], 1, 0)`: at the end of the stream it returns 0 and stores nothing. The byte
`buf[i]` is read right after it in any case. -/
def recvByte (buf : Bytes) (i : Nat) : M Bytes := fun w =>
  if maxArraySize ≤ i then .error .outOfBounds else
  match w.inp with
  | [] => .ok (buf, w)
  | c :: inp => .ok (bufPut buf i c, { w with inp := inp })

/-- `ArraySizeStates`. -/
inductive ArraySizeStates where
  | startState
  | digitState
  | negDigitStateI
  | negDigitStateII
  | endState

/-- The loop of `get_el_size`. -/
def getElSizeLoop : Nat → ArraySizeStates → (isNegative : Bool) → (nBytes : Nat) → Bytes → M Int
  | 0, _, _, _, _ => throw .timeout
  | fuel + 1, state, isNegative, nBytes, buf => do
    if nBytes > maxArraySize then return errInvChar
    let buf ← recvByte buf nBytes
    match state with
    | .startState =>
      if isDigit (bufAt buf 0) then getElSizeLoop fuel .digitState isNegative (nBytes + 1) buf
      else if bufAt buf 0 = 45 then getElSizeLoop fuel .negDigitStateI true nBytes buf
      else return errInvChar
    | .digitState =>
      if isDigit (bufAt buf nBytes) then
        getElSizeLoop fuel .digitState isNegative (nBytes + 1) buf
      else if bufAt buf nBytes = 13 then getElSizeLoop fuel .endState isNegative nBytes buf
      else return errInvChar
    | .negDigitStateI =>
      if bufAt buf nBytes ≠ 49 then return errInvChar
      else getElSizeLoop fuel .negDigitStateII isNegative (nBytes + 1) buf
    | .negDigitStateII =>
      if bufAt buf nBytes ≠ 13 then return errInvChar
      else getElSizeLoop fuel .endState isNegative nBytes buf
    | .endState =>
      if bufAt buf nBytes ≠ 10 then return errInvChar
      else
        let arrSize := stringToUint (bufPut buf nBytes 0)
        return (if isNegative then -1 * arrSize else arrSize).toInt

/-- `get_el_size`. Each round takes a byte of the input or is the last one. -/
def getElSize : M Int := fun w => getElSizeLoop (w.inp.length + 3) .startState false 0 [] w

/-! ## What it reads -/

/-- What stands at the beginning of a stream: a size and CRLF, no such thing, or a run of digits
that is too long for the buffer. -/
inductive SizePrefix where
  | size (n : Int) (rest : Bytes)
  | bad
  | long

/-- The number of `ds` as an `int`. -/
def intValue (ds : Bytes) : Int := (BitVec.ofNat 32 (value ds)).toInt

/-- The rest of a stream after the byte `c`. -/
def afterByte (c : UInt8) : Bytes → Option Bytes
  | [] => none
  | d :: rest => if d = c then some rest else none

/-- The rest of a stream after CRLF. -/
def afterCrlf (bs : Bytes) : Option Bytes := (afterByte 13 bs).bind (afterByte 10)

/-- The size prefix of a stream. -/
def readSize (bs : Bytes) : SizePrefix :=
  let ds := bs.takeWhile isDigit
  if ds = [] then
    match ((afterByte 45 bs).bind (afterByte 49)).bind afterCrlf with
    | some rest => .size (-1) rest
    | none => .bad
  else if maxArraySize ≤ ds.length then .long
  else
    match afterCrlf (bs.dropWhile isDigit) with
    | some rest => .size (intValue ds) rest
    | none => .bad

section Buffer

theorem bufAt_length (buf : Bytes) : bufAt buf buf.length = 0 := by
  simp [bufAt]

@[simp] theorem bufAt_append_length (buf : Bytes) (c : UInt8) (t : Bytes) :
    bufAt (buf ++ c :: t) buf.length = c := by
  simp [bufAt]

@[simp] theorem bufPut_length (buf : Bytes) (c : UInt8) :
    bufPut buf buf.length c = buf ++ [c] := by
  simp [bufPut]

@[simp] theorem bufPut_append_length (buf : Bytes) (c d : UInt8) :
    bufPut (buf ++ [d]) buf.length c = buf ++ [c] := by
  simp [bufPut]

end Buffer

section Loop

variable {w : World}

theorem recvByte_nil {buf : Bytes} {i : Nat} (hi : i < maxArraySize) (h : w.inp = []) :
    recvByte buf i w = .ok (buf, w) := by
  rw [recvByte, if_neg (Nat.not_le.mpr hi), h]

theorem recvByte_cons {buf : Bytes} {i : Nat} (hi : i < maxArraySize) {c : UInt8} {inp : Bytes}
    (h : w.inp = c :: inp) : recvByte buf i w = .ok (bufPut buf i c, { w with inp := inp }) := by
  rw [recvByte, if_neg (Nat.not_le.mpr hi), h]

/-- What a size reader comes to, in terms of the prefix: `get_el_size` leaves the heap alone. -/
def SizePrefix.Read (p : SizePrefix) (w : World) (r : Except Fault (Int × World)) : Prop :=
  match p with
  | .size n rest => r = .ok (n, { w with inp := rest })
  | .bad => ∃ rest, r = .ok (errInvChar, { w with inp := rest })
  | .long => r = .error .outOfBounds

/-- The number that the machine returns at the end, with the digits in `buf`. -/
def numOf (isNegative : Bool) (buf : Bytes) : Int :=
  (if isNegative then -1 * stringToUint (buf ++ [0]) else stringToUint (buf ++ [0])).toInt

/-- A size prefix whose digits are read already. -/
def sizeOf (isNegative : Bool) (buf : Bytes) : Option Bytes → SizePrefix
  | some rest => .size (numOf isNegative buf) rest
  | none => .bad

/-- The last state, with `buf` and one more byte in the buffer, which is not LF. -/
theorem getElSizeLoop_endState (fuel : Nat) (neg : Bool) {buf : Bytes} {c : UInt8}
    (hn : buf.length < maxArraySize) (hc : c ≠ 10) :
    (sizeOf neg buf (afterByte 10 w.inp)).Read w
      (getElSizeLoop (fuel + 1) .endState neg buf.length (buf ++ [c]) w) := by
  have hgt : ¬ buf.length > maxArraySize := by omega
  cases hi : w.inp with
  | nil =>
    refine ⟨w.inp, ?_⟩
    rw [getElSizeLoop, if_neg hgt, M.bind_ok (recvByte_nil hn hi)]
    simp only [bufAt_append_length, ne_eq, hc, not_false_eq_true, if_true, M.pure_run]
  | cons d inp =>
    rw [getElSizeLoop, if_neg hgt, M.bind_ok (recvByte_cons hn hi), bufPut_append_length]
    by_cases hd : d = 10
    · subst hd
      simp only [bufAt_append_length, ne_eq, not_true_eq_false, if_false, bufPut_append_length]
      rfl
    · simp only [bufAt_append_length, ne_eq, hd, not_false_eq_true, if_true, M.pure_run, afterByte,
        if_false]
      exact ⟨inp, rfl⟩

/-- A state in which the machine takes CR, with `buf` in the buffer, and no digit follows. -/
theorem getElSizeLoop_cr (fuel : Nat) (neg : Bool) {state : ArraySizeStates} {buf : Bytes}
    (hn : buf.length < maxArraySize)
    (hs : state = .negDigitStateII ∨ state = .digitState ∧ ∀ c ∈ w.inp.head?, isDigit c = false) :
    (sizeOf neg buf (afterCrlf w.inp)).Read w
      (getElSizeLoop (fuel + 2) state neg buf.length buf w) := by
  have hgt : ¬ buf.length > maxArraySize := by omega
  cases hi : w.inp with
  | nil =>
    refine ⟨w.inp, ?_⟩
    rw [getElSizeLoop, if_neg hgt, M.bind_ok (recvByte_nil hn hi)]
    rcases hs with rfl | ⟨rfl, -⟩
    · rw [bufAt_length]
      rfl
    · rw [bufAt_length]
      rfl
  | cons d inp =>
    rw [getElSizeLoop, if_neg hgt, M.bind_ok (recvByte_cons hn hi), bufPut_length]
    by_cases hd : d = 13
    · subst hd
      have hend := getElSizeLoop_endState (w := { w with inp := inp }) fuel neg hn
        (show (13 : UInt8) ≠ 10 by decide)
      rcases hs with rfl | ⟨rfl, -⟩
      · simp only [bufAt_append_length, ne_eq, not_true_eq_false, if_false]
        exact hend
      · simp only [bufAt_append_length, if_true]
        exact hend
    · rcases hs with rfl | ⟨rfl, hdig⟩
      · simp only [bufAt_append_length, ne_eq, hd, not_false_eq_true, if_true, M.pure_run,
          afterCrlf, afterByte, if_false]
        exact ⟨inp, rfl⟩
      · have hdd : isDigit d = false := hdig d (by simp [hi])
        simp only [bufAt_append_length, hdd, hd, if_false, M.pure_run, Bool.false_eq_true,
          afterCrlf, afterByte]
        exact ⟨inp, rfl⟩

/-- The buffer is full: the next byte goes outside of it. -/
theorem getElSizeLoop_full (fuel : Nat) {state : ArraySizeStates} {buf : Bytes}
    (hn : buf.length = maxArraySize) :
    getElSizeLoop (fuel + 1) state false buf.length buf w = .error .outOfBounds := by
  rw [getElSizeLoop, if_neg (by omega)]
  exact M.bind_error (by rw [recvByte, if_pos (by omega)])

/-- The prefix with the digits `ds`. -/
def digitsOf (ds : Bytes) (rest : Option Bytes) : SizePrefix :=
  if maxArraySize ≤ ds.length then .long else sizeOf false ds rest

/-- The digits: `buf` has those read so far. -/
theorem getElSizeLoop_digits {fuel : Nat} {buf bs : Bytes} (hf : bs.length + 2 ≤ fuel)
    (hi : w.inp = bs) (hn : buf.length ≤ maxArraySize) :
    (digitsOf (buf ++ bs.takeWhile isDigit) (afterCrlf (bs.dropWhile isDigit))).Read w
      (getElSizeLoop fuel .digitState false buf.length buf w) := by
  induction bs generalizing buf w fuel with
  | nil =>
    obtain ⟨fuel, rfl⟩ : ∃ k, fuel = k + 2 := ⟨fuel - 2, by omega⟩
    by_cases hlt : buf.length < maxArraySize
    · rw [List.takeWhile_nil, List.append_nil, digitsOf, if_neg (by omega), List.dropWhile_nil, ← hi]
      exact getElSizeLoop_cr fuel false hlt (.inr ⟨rfl, by simp [hi]⟩)
    · rw [digitsOf, if_pos (by simp; omega)]
      exact getElSizeLoop_full _ (by omega)
  | cons c bs ih =>
    obtain ⟨fuel, rfl⟩ : ∃ k, fuel = k + 2 := ⟨fuel - 2, by omega⟩
    by_cases hlt : buf.length < maxArraySize
    · by_cases hc : isDigit c = true
      · have hf' : bs.length + 2 ≤ fuel + 1 := Nat.le_of_succ_le_succ hf
        have hn' : (buf ++ [c]).length ≤ maxArraySize := by simp; omega
        have h := ih (w := { w with inp := bs }) hf' rfl hn'
        rw [List.append_assoc, List.singleton_append] at h
        rw [List.takeWhile_cons_of_pos hc, List.dropWhile_cons_of_pos hc, getElSizeLoop,
          if_neg (by omega), M.bind_ok (recvByte_cons hlt hi), bufPut_length]
        simp only [bufAt_append_length, hc, if_true]
        rw [List.length_append] at h
        exact h
      · rw [List.takeWhile_cons_of_neg hc, List.dropWhile_cons_of_neg hc, List.append_nil, digitsOf,
          if_neg (by omega), ← hi]
        exact getElSizeLoop_cr fuel false hlt (.inr ⟨rfl, by simp [hi, hc]⟩)
    · rw [digitsOf, if_pos (by simp; omega)]
      exact getElSizeLoop_full _ (by omega)

/-- The number that the digits denote. -/
theorem numOf_digits {ds : Bytes} (h : ∀ c ∈ ds, isDigit c = true) :
    numOf false ds = intValue ds := by
  rw [numOf, if_neg (by decide), stringToUint_append_zero h]
  rfl

/-- The prefix of a stream that begins with a digit. -/
theorem readSize_digit {c : UInt8} (hc : isDigit c = true) (bs : Bytes) :
    readSize (c :: bs) =
      digitsOf (c :: bs.takeWhile isDigit) (afterCrlf (bs.dropWhile isDigit)) := by
  have hds : ∀ x ∈ c :: bs.takeWhile isDigit, isDigit x = true := by
    intro x hx
    rcases List.mem_cons.mp hx with rfl | hx
    · exact hc
    · exact List.mem_takeWhile_imp hx
  unfold readSize digitsOf
  rw [List.takeWhile_cons_of_pos hc, List.dropWhile_cons_of_pos hc, if_neg (List.cons_ne_nil _ _)]
  split
  · rfl
  · cases afterCrlf (bs.dropWhile isDigit) with
    | none => rfl
    | some rest => rw [sizeOf, numOf_digits hds]

/-- The prefix of a stream that does not. -/
theorem readSize_other {c : UInt8} (hc : isDigit c = false) (bs : Bytes) :
    readSize (c :: bs) =
      if c = 45 then sizeOf true [49] ((afterByte 49 bs).bind afterCrlf) else .bad := by
  have hn : numOf true [49] = -1 := by decide
  unfold readSize
  rw [List.takeWhile_cons_of_neg (by simp [hc]), if_pos rfl]
  by_cases h45 : c = 45
  · subst h45
    rw [if_pos rfl]
    show (match ((afterByte 49 bs).bind afterCrlf) with
      | some rest => SizePrefix.size (-1) rest
      | none => .bad) = _
    cases (afterByte 49 bs).bind afterCrlf with
    | none => rfl
    | some rest => rw [sizeOf, hn]
  · rw [if_neg h45, afterByte, if_neg h45]
    rfl

/-- The states after the minus sign. -/
theorem getElSizeLoop_neg (fuel : Nat) :
    (sizeOf true [49] ((afterByte 49 w.inp).bind afterCrlf)).Read w
      (getElSizeLoop (fuel + 3) .negDigitStateI true 0 [45] w) := by
  have hlt : 0 < maxArraySize := by decide
  cases hi : w.inp with
  | nil =>
    refine ⟨w.inp, ?_⟩
    rw [getElSizeLoop, if_neg (by decide), M.bind_ok (recvByte_nil hlt hi)]
    rfl
  | cons d bs =>
    have hput : bufPut [45] 0 d = [d] := rfl
    have hat : bufAt [d] 0 = d := rfl
    rw [getElSizeLoop, if_neg (by decide), M.bind_ok (recvByte_cons hlt hi)]
    simp only [hput, hat, afterByte]
    by_cases hd : d = 49
    · subst hd
      simp only [ne_eq, not_true_eq_false, if_false, if_true]
      have hlen : ([49] : Bytes).length < maxArraySize := by decide
      exact getElSizeLoop_cr (w := { w with inp := bs }) fuel true hlen (.inl rfl)
    · simp only [ne_eq, hd, not_false_eq_true, if_true, if_false]
      exact ⟨bs, rfl⟩

/-- `get_el_size` reads the size prefix. -/
theorem getElSize_eq (w : World) : (readSize w.inp).Read w (getElSize w) := by
  unfold getElSize
  have hlt : 0 < maxArraySize := by decide
  cases hi : w.inp with
  | nil =>
    refine ⟨w.inp, ?_⟩
    rw [getElSizeLoop, if_neg (by decide), M.bind_ok (recvByte_nil hlt hi)]
    rfl
  | cons c bs =>
    have hput : bufPut [] 0 c = [c] := rfl
    have hat : bufAt [c] 0 = c := rfl
    rw [getElSizeLoop, if_neg (by decide), M.bind_ok (recvByte_cons hlt hi)]
    simp only [hput, hat]
    cases hc : isDigit c with
    | true =>
      rw [readSize_digit hc]
      have hlen : [c].length ≤ maxArraySize := Nat.succ_le_of_lt hlt
      exact getElSizeLoop_digits (w := { w with inp := bs }) (by simp) rfl hlen
    | false =>
      rw [readSize_other hc]
      by_cases h45 : c = 45
      · subst h45
        simp only [if_true]
        exact getElSizeLoop_neg (w := { w with inp := bs }) _
      · simp only [h45, if_false, Bool.false_eq_true]
        exact ⟨bs, rfl⟩

/-- When a run of digits is too long. -/
theorem readSize_eq_long {bs : Bytes} :
    readSize bs = .long ↔ maxArraySize ≤ (bs.takeWhile isDigit).length := by
  unfold readSize
  by_cases hne : bs.takeWhile isDigit = []
  · simp only [hne, if_true, List.length_nil]
    split <;> simp [maxArraySize]
  · simp only [hne, if_false]
    split
    · simp [*]
    · split <;> simp [*]

/-- `get_el_size` stays in its buffer, and returns, when fewer than 8192 digits lead. -/
theorem getElSize_returns_iff {heap : Heap Cell} {bs : Bytes} :
    (∃ n v, getElSize ⟨heap, bs⟩ = .ok (n, v)) ↔ (bs.takeWhile isDigit).length < maxArraySize := by
  have hr := getElSize_eq ⟨heap, bs⟩
  rw [← not_le, ← readSize_eq_long]
  cases hp : readSize bs with
  | size n rest =>
    rw [hp] at hr
    exact ⟨fun _ h => (by cases h), fun _ => ⟨_, _, hr⟩⟩
  | bad =>
    rw [hp] at hr
    obtain ⟨rest, hr⟩ := hr
    exact ⟨fun _ h => (by cases h), fun _ => ⟨_, _, hr⟩⟩
  | long =>
    rw [hp] at hr
    refine ⟨?_, fun h => absurd rfl h⟩
    rintro ⟨n, v, hok⟩
    rw [show getElSize ⟨heap, bs⟩ = .error .outOfBounds from hr] at hok
    cases hok

end Loop

/-! ## Prefixes as bytes -/

theorem afterByte_eq_some {c : UInt8} {bs rest : Bytes} :
    afterByte c bs = some rest ↔ bs = c :: rest := by
  cases bs with
  | nil => simp [afterByte]
  | cons d bs =>
    simp only [afterByte, Option.ite_none_right_eq_some, Option.some.injEq, List.cons.injEq]

/-- The bytes that begin with CRLF. -/
theorem afterCrlf_eq_some {bs rest : Bytes} :
    afterCrlf bs = some rest ↔ bs = 13 :: 10 :: rest := by
  simp only [afterCrlf, Option.bind_eq_some_iff, afterByte_eq_some]
  constructor
  · rintro ⟨_, rfl, rfl⟩
    rfl
  · rintro rfl
    exact ⟨_, rfl, rfl⟩

/-- A run of digits and CRLF. -/
theorem readSize_digits {ds : Bytes} (hne : ds ≠ []) (h : ∀ c ∈ ds, isDigit c = true)
    (hlen : ds.length < maxArraySize) (rest : Bytes) :
    readSize (ds ++ 13 :: 10 :: rest) = .size (intValue ds) rest := by
  have ht : (ds ++ 13 :: 10 :: rest).takeWhile isDigit = ds := by
    rw [List.takeWhile_append_of_pos h, List.takeWhile_cons_of_neg (by decide), List.append_nil]
  have hd : (ds ++ 13 :: 10 :: rest).dropWhile isDigit = 13 :: 10 :: rest := by
    rw [List.dropWhile_append_of_pos h, List.dropWhile_cons_of_neg (by decide)]
  unfold readSize
  rw [ht, hd, if_neg hne, if_neg (by omega)]
  rfl

/-- What a stream with a size prefix begins with. -/
theorem readSize_eq_size {bs rest : Bytes} {n : Int} (h : readSize bs = .size n rest) :
    n = -1 ∧ bs = 45 :: 49 :: 13 :: 10 :: rest ∨
      ∃ ds, ds ≠ [] ∧ (∀ c ∈ ds, isDigit c = true) ∧ n = intValue ds ∧
        bs = ds ++ 13 :: 10 :: rest := by
  by_cases hne : bs.takeWhile isDigit = []
  · left
    simp only [readSize, hne, if_true] at h
    split at h
    · rename_i rest' hb
      cases h
      simp only [Option.bind_eq_some_iff, afterByte_eq_some, afterCrlf_eq_some] at hb
      obtain ⟨_, ⟨_, rfl, rfl⟩, rfl⟩ := hb
      exact ⟨rfl, rfl⟩
    · cases h
  · right
    simp only [readSize, hne, if_false] at h
    split at h
    · cases h
    · split at h
      · rename_i rest' hb
        cases h
        refine ⟨_, hne, fun c hc => List.mem_takeWhile_imp hc, rfl, ?_⟩
        rw [← afterCrlf_eq_some.mp hb, List.takeWhile_append_dropWhile]
      · cases h

/-- A size is an `int`: as an `unsigned int` it is zero only if it is zero. -/
theorem readSize_count_pos {bs rest : Bytes} {n : Int} (h : readSize bs = .size n rest)
    (hn : n ≠ 0) : 0 < (BitVec.ofInt 32 n).toNat := by
  rcases readSize_eq_size h with ⟨rfl, -⟩ | ⟨ds, -, -, rfl, -⟩
  · decide
  · rw [intValue, BitVec.ofInt_toInt]
    refine Nat.pos_of_ne_zero fun h0 => hn ?_
    have hz : BitVec.ofNat 32 (value ds) = 0#32 := BitVec.eq_of_toNat_eq h0
    rw [intValue, hz]
    rfl

end RedisImpl
