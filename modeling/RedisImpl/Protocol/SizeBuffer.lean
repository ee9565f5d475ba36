import RedisImpl.Lib.Loop
import RedisImpl.Protocol.Grammar

/-!
# Where `get_el_size` stores

`getElSize` faults where the machine uses a byte outside of its buffer. Here it goes on: the byte
behind the buffer (`past`) is memory like any other, with any value, and every store is recorded with
its index. `sizeRound` is a round of the loop; `ends_of_getElSize` says that where `getElSize` returns,
both come to the same, and all stores are inside.

The check is `n_bytes > MAX_ARRAY_SIZE`, so that the index may be `MAX_ARRAY_SIZE`: the byte behind
8192 digits is stored outside of the buffer.
-/

namespace RedisImpl

/-- The variables of `get_el_size`: the buffer, the byte behind it, the stream, and the indices that
were stored to. -/
structure SizeReader where
  state : ArraySizeStates
  isNegative : Bool
  nBytes : Nat
  buf : Bytes
  past : UInt8
  inp : Bytes
  stored : List Nat

namespace SizeReader

/-- `buf[n_bytes]`. -/
def current (s : SizeReader) : UInt8 :=
  if s.nBytes < maxArraySize then bufAt s.buf s.nBytes else s.past

/-- `buf[n_bytes] = c`. -/
def put (s : SizeReader) (c : UInt8) : SizeReader :=
  if s.nBytes < maxArraySize then
    { s with buf := bufPut s.buf s.nBytes c, stored := s.stored ++ [s.nBytes] }
  else { s with past := c, stored := s.stored ++ [s.nBytes] }

/-- `recv(fd, &buf[n_bytes], 1, 0)`. -/
def recv (s : SizeReader) : SizeReader :=
  match s.inp with
  | [] => s
  | c :: inp => { s with inp := inp }.put c

/-- The buffer and the byte behind it, as a C string. -/
def string (s : SizeReader) : Bytes :=
  if s.buf.length < maxArraySize then s.buf else s.buf ++ [s.past]

/-- The state before the first round. -/
def start (past : UInt8) (inp : Bytes) : SizeReader :=
  ⟨.startState, false, 0, [], past, inp, []⟩

end SizeReader

/-- The `switch` of `get_el_size`. -/
def sizeSwitch (s : SizeReader) : Round SizeReader (Int × SizeReader) :=
  match s.state with
  | .startState =>
    if isDigit (bufAt s.buf 0) then .again { s with state := .digitState, nBytes := s.nBytes + 1 }
    else if bufAt s.buf 0 = 45 then .again { s with state := .negDigitStateI, isNegative := true }
    else .exit (errInvChar, s)
  | .digitState =>
    if isDigit s.current then .again { s with nBytes := s.nBytes + 1 }
    else if s.current = 13 then .again { s with state := .endState }
    else .exit (errInvChar, s)
  | .negDigitStateI =>
    if s.current ≠ 49 then .exit (errInvChar, s)
    else .again { s with state := .negDigitStateII, nBytes := s.nBytes + 1 }
  | .negDigitStateII =>
    if s.current ≠ 13 then .exit (errInvChar, s)
    else .again { s with state := .endState }
  | .endState =>
    if s.current ≠ 10 then .exit (errInvChar, s)
    else
      let s := s.put 0
      let arrSize := stringToUint s.string
      .exit ((if s.isNegative then -1 * arrSize else arrSize).toInt, s)

/-- A round of the loop of `get_el_size`. -/
def sizeRound (s : SizeReader) : Round SizeReader (Int × SizeReader) :=
  if s.nBytes > maxArraySize then .exit (errInvChar, s) else sizeSwitch s.recv

section Rounds

variable {s s' : SizeReader}

@[simp] theorem SizeReader.put_nBytes (c : UInt8) : (s.put c).nBytes = s.nBytes := by
  unfold put
  split <;> rfl

@[simp] theorem SizeReader.put_state (c : UInt8) : (s.put c).state = s.state := by
  unfold put
  split <;> rfl

@[simp] theorem SizeReader.put_stored (c : UInt8) : (s.put c).stored = s.stored ++ [s.nBytes] := by
  unfold put
  split <;> rfl

@[simp] theorem SizeReader.put_isNegative (c : UInt8) : (s.put c).isNegative = s.isNegative := by
  unfold put
  split <;> rfl

@[simp] theorem SizeReader.put_inp (c : UInt8) : (s.put c).inp = s.inp := by
  unfold put
  split <;> rfl

@[simp] theorem SizeReader.recv_nBytes : s.recv.nBytes = s.nBytes := by
  unfold recv
  split <;> simp

@[simp] theorem SizeReader.recv_isNegative : s.recv.isNegative = s.isNegative := by
  unfold recv
  split <;> simp

@[simp] theorem SizeReader.recv_state : s.recv.state = s.state := by
  unfold recv
  split <;> simp

/-- How far a state is from the end. -/
def ArraySizeStates.rank : ArraySizeStates → Nat
  | startState => 4
  | negDigitStateI => 3
  | negDigitStateII => 2
  | digitState => 1
  | endState => 0

/-- The rounds that are left: a digit leaves less room in the buffer, and no other state is left for
an earlier one. -/
def SizeReader.fuel (s : SizeReader) : Nat :=
  s.state.rank * (maxArraySize + 2) + (maxArraySize + 1 - s.nBytes)

theorem sizeRound_of_gt (h : maxArraySize < s.nBytes) : sizeRound s = .exit (errInvChar, s) :=
  if_pos h

theorem sizeRound_of_le (h : s.nBytes ≤ maxArraySize) : sizeRound s = sizeSwitch s.recv :=
  if_neg (Nat.not_lt.mpr h)

/-- What the `switch` does when the loop goes on: it comes to a later state, or it took a digit. -/
theorem sizeSwitch_again (h : sizeSwitch s = .again s') :
    s'.state.rank < s.state.rank ∨ s'.state = s.state ∧ s'.nBytes = s.nBytes + 1 := by
  unfold sizeSwitch at h
  cases hs : s.state <;> simp only [hs] at h <;> (repeat' split at h) <;> cases h <;>
    simp [ArraySizeStates.rank]

theorem sizeRound_lt (s s' : SizeReader) (h : sizeRound s = .again s') : s'.fuel < s.fuel := by
  have hle : s.nBytes ≤ maxArraySize := by
    by_contra hgt
    rw [sizeRound_of_gt (by omega)] at h
    cases h
  rw [sizeRound_of_le hle] at h
  have hstep := sizeSwitch_again h
  rw [SizeReader.recv_state, SizeReader.recv_nBytes] at hstep
  rcases hstep with hrank | ⟨hs, hn⟩
  · have hmul := Nat.mul_le_mul_right (maxArraySize + 2) (Nat.succ_le_of_lt hrank)
    rw [Nat.succ_mul] at hmul
    simp only [SizeReader.fuel]
    omega
  · simp only [SizeReader.fuel, hs, hn]
    omega

/-- Every stream has a result. -/
theorem ends_sizeRound (s : SizeReader) : ∃ r, Loop.Ends sizeRound s r :=
  Loop.ends_of_measure SizeReader.fuel sizeRound_lt s

/-- `l'` is `l` with stores at `n` behind it. -/
def StoresAt (n : Nat) (l l' : List Nat) : Prop := ∃ k, l' = l ++ List.replicate k n

theorem StoresAt.refl (n : Nat) (l : List Nat) : StoresAt n l l := ⟨0, (List.append_nil l).symm⟩

theorem StoresAt.trans {n : Nat} {l l' l'' : List Nat} (h : StoresAt n l l')
    (h' : StoresAt n l' l'') : StoresAt n l l'' := by
  obtain ⟨k, rfl⟩ := h
  obtain ⟨k', rfl⟩ := h'
  exact ⟨k + k', by rw [List.append_assoc, List.replicate_append_replicate]⟩

theorem SizeReader.recv_stored : StoresAt s.nBytes s.stored s.recv.stored := by
  unfold recv
  split
  · exact .refl _ _
  · exact ⟨1, put_stored _⟩

/-- The `switch` stores at the current index only. -/
theorem storesAt_of_switch :
    (∀ s', sizeSwitch s = .again s' → StoresAt s.nBytes s.stored s'.stored) ∧
      ∀ r, sizeSwitch s = .exit r → StoresAt s.nBytes s.stored r.2.stored := by
  have hrefl := StoresAt.refl s.nBytes s.stored
  have hput : StoresAt s.nBytes s.stored (s.stored ++ [s.nBytes]) := ⟨1, rfl⟩
  constructor
  all_goals
    intro t ht
    unfold sizeSwitch at ht
    cases hs : s.state <;> simp only [hs] at ht <;> (repeat' split at ht) <;> cases ht <;>
      simp [hrefl, hput]

/-- A round stores at the index that it begins with. -/
theorem storesAt_of_round :
    (∀ s', sizeRound s = .again s' → StoresAt s.nBytes s.stored s'.stored) ∧
      ∀ r, sizeRound s = .exit r → StoresAt s.nBytes s.stored r.2.stored := by
  by_cases hle : s.nBytes ≤ maxArraySize
  · rw [sizeRound_of_le hle]
    have h := storesAt_of_switch (s := s.recv)
    rw [SizeReader.recv_nBytes] at h
    exact ⟨fun s' hs => s.recv_stored.trans (h.1 s' hs), fun r hr => s.recv_stored.trans (h.2 r hr)⟩
  · rw [sizeRound_of_gt (by omega)]
    refine ⟨fun s' hs => (by cases hs), fun r hr => ?_⟩
    cases hr
    exact .refl _ _

theorem StoresAt.mem {n i : Nat} {l l' : List Nat} (h : StoresAt n l l') (hi : i ∈ l) : i ∈ l' := by
  obtain ⟨k, rfl⟩ := h
  exact List.mem_append_left _ hi

theorem StoresAt.lt {n : Nat} {l l' : List Nat} (h : StoresAt n l l') (hn : n < maxArraySize)
    (hl : ∀ i ∈ l, i < maxArraySize) : ∀ i ∈ l', i < maxArraySize := by
  obtain ⟨k, rfl⟩ := h
  intro i hi
  rcases List.mem_append.mp hi with hi | hi
  · exact hl i hi
  · exact (List.eq_of_mem_replicate hi) ▸ hn

/-- No store is forgotten. -/
theorem mem_stored_of_ends {r : Int × SizeReader} {i : Nat} (h : Loop.Ends sizeRound s r)
    (hi : i ∈ s.stored) : i ∈ r.2.stored :=
  h.rule (fun t => i ∈ t.stored) (fun r => i ∈ r.2.stored)
    (fun _ _ ht hr => (storesAt_of_round.1 _ hr).mem ht)
    (fun _ _ ht hr => (storesAt_of_round.2 _ hr).mem ht) hi

/-! ## The rounds inside the buffer -/

theorem recvByte_eq (heap : Heap Cell) (hlt : s.nBytes < maxArraySize) :
    recvByte s.buf s.nBytes ⟨heap, s.inp⟩ = .ok (s.recv.buf, ⟨heap, s.recv.inp⟩) := by
  rw [SizeReader.recv]
  split
  · rename_i hi
    rw [recvByte_nil hlt hi]
  · rename_i c inp hi
    rw [recvByte_cons hlt hi, SizeReader.put, if_pos hlt]

/-- Inside the buffer, a round is one of `getElSizeLoop`. -/
theorem getElSizeLoop_eq (fuel : Nat) (heap : Heap Cell) (hlt : s.nBytes < maxArraySize) :
    getElSizeLoop (fuel + 1) s.state s.isNegative s.nBytes s.buf ⟨heap, s.inp⟩ =
      match sizeRound s with
      | .again s' => getElSizeLoop fuel s'.state s'.isNegative s'.nBytes s'.buf ⟨heap, s'.inp⟩
      | .exit (n, s') => .ok (n, ⟨heap, s'.inp⟩) := by
  have hle : ¬ s.nBytes > maxArraySize := by omega
  have hcur : s.recv.current = bufAt s.recv.buf s.nBytes := by
    rw [SizeReader.current, SizeReader.recv_nBytes, if_pos hlt]
  have hput : stringToUint (s.recv.put 0).string = stringToUint (bufPut s.recv.buf s.nBytes 0) := by
    rw [SizeReader.put, SizeReader.recv_nBytes, if_pos hlt, SizeReader.string]
    split
    · rfl
    · rw [stringToUint, cstr_append_of_mem (by simp [bufPut]), stringToUint]
  rw [getElSizeLoop, if_neg hle, M.bind_ok (recvByte_eq heap hlt), sizeRound_of_le hlt.le]
  simp only [sizeSwitch, hcur, SizeReader.recv_state, SizeReader.recv_isNegative, SizeReader.recv_nBytes]
  cases s.state with
  | startState => dsimp only; split_ifs <;> rfl
  | digitState => dsimp only; split_ifs <;> rfl
  | negDigitStateI => dsimp only; split_ifs <;> rfl
  | negDigitStateII => dsimp only; split_ifs <;> rfl
  | endState =>
    dsimp only
    simp only [hput, SizeReader.put_isNegative, SizeReader.recv_isNegative]
    split_ifs <;> simp

/-- Where the loop returns without leaving the buffer, the rounds come to the same. The induction is
on the fuel. -/
theorem ends_of_getElSizeLoop {fuel : Nat} {heap : Heap Cell} {n : Int} {w : World}
    (h : getElSizeLoop fuel s.state s.isNegative s.nBytes s.buf ⟨heap, s.inp⟩ = .ok (n, w))
    (hs : ∀ i ∈ s.stored, i < maxArraySize) :
    ∃ s', Loop.Ends sizeRound s (n, s') ∧ w = ⟨heap, s'.inp⟩ ∧ ∀ i ∈ s'.stored, i < maxArraySize := by
  induction fuel generalizing s with
  | zero => cases h
  | succ fuel ih =>
    rcases Nat.lt_trichotomy s.nBytes maxArraySize with hlt | heq | hgt
    · rw [getElSizeLoop_eq fuel heap hlt] at h
      cases hr : sizeRound s with
      | again s' =>
        rw [hr] at h
        obtain ⟨t, ht, hw, hin⟩ := ih h ((storesAt_of_round.1 s' hr).lt hlt hs)
        exact ⟨t, ht.again hr, hw, hin⟩
      | exit r =>
        rw [hr] at h
        obtain ⟨m, t⟩ := r
        cases h
        exact ⟨t, .exit hr, rfl, (storesAt_of_round.2 _ hr).lt hlt hs⟩
    · rw [getElSizeLoop, if_neg (by omega), M.bind_error (by rw [recvByte, if_pos (by omega)])] at h
      cases h
    · rw [getElSizeLoop, if_pos hgt] at h
      cases h
      exact ⟨s, .exit (sizeRound_of_gt hgt), rfl, hs⟩

/-- Where `get_el_size` returns without leaving its buffer, the rounds come to the same. -/
theorem ends_of_getElSize {bs : Bytes} {heap : Heap Cell} {n : Int} {w : World} (past : UInt8)
    (h : getElSize ⟨heap, bs⟩ = .ok (n, w)) :
    ∃ s, Loop.Ends sizeRound (.start past bs) (n, s) ∧ w = ⟨heap, s.inp⟩ ∧
      ∀ i ∈ s.stored, i < maxArraySize :=
  ends_of_getElSizeLoop h (by simp [SizeReader.start])

end Rounds

/-! ## A run of digits -/

section Digits

variable {past : UInt8} {ds rest : Bytes}

/-- The state behind the digits `ds`. -/
def SizeReader.digits (past : UInt8) (ds rest : Bytes) : SizeReader :=
  ⟨.digitState, false, ds.length, ds, past, rest, List.range ds.length⟩

theorem sizeRound_first {c : UInt8} (hc : isDigit c = true) :
    sizeRound (.start past (c :: rest)) = .again (.digits past [c] rest) := by
  have hat : bufAt [c] 0 = c := rfl
  have hrecv : (SizeReader.start past (c :: rest)).recv =
      ⟨.startState, false, 0, [c], past, rest, [0]⟩ := rfl
  rw [sizeRound_of_le (Nat.zero_le _), hrecv]
  simp only [sizeSwitch, hat, hc, if_true]
  rfl

/-- A digit that follows goes into the buffer. -/
theorem sizeRound_digit {c : UInt8} (hc : isDigit c = true) (hlt : ds.length < maxArraySize) :
    sizeRound (.digits past ds (c :: rest)) = .again (.digits past (ds ++ [c]) rest) := by
  have hrecv : (SizeReader.digits past ds (c :: rest)).recv =
      ⟨.digitState, false, ds.length, ds ++ [c], past, rest, List.range ds.length ++ [ds.length]⟩ := by
    simp [SizeReader.recv, SizeReader.digits, SizeReader.put, hlt]
  rw [sizeRound_of_le hlt.le, hrecv]
  simp only [sizeSwitch, SizeReader.current, hlt, if_true, bufAt_append_length, hc]
  rw [SizeReader.digits, List.length_append, List.length_singleton, List.range_succ]

/-- A run of digits that fits into the buffer is stored there. -/
theorem reaches_digits (past : UInt8) (rest : Bytes) (hne : ds ≠ []) (hd : ∀ c ∈ ds, isDigit c = true)
    (hlen : ds.length ≤ maxArraySize) :
    Loop.Reaches sizeRound (.start past (ds ++ rest)) (.digits past ds rest) := by
  induction ds using List.reverseRecOn generalizing rest with
  | nil => exact absurd rfl hne
  | append_singleton ds c ih =>
    rw [List.length_append, List.length_singleton] at hlen
    have hc : isDigit c = true := hd c (by simp)
    cases ds with
    | nil => exact .single (sizeRound_first hc)
    | cons d ds =>
      rw [List.append_assoc]
      refine (ih _ (List.cons_ne_nil d ds) (fun x hx => hd x (List.mem_append_left _ hx))
        (by omega)).tail ?_
      exact sizeRound_digit hc (by omega)

/-- The byte behind 8192 digits is stored outside of the buffer. -/
theorem mem_stored_of_full {c : UInt8} (hlen : ds.length = maxArraySize) {r : Int × SizeReader}
    (h : Loop.Ends sizeRound (.digits past ds (c :: rest)) r) : maxArraySize ∈ r.2.stored := by
  have hn : (SizeReader.digits past ds (c :: rest)).nBytes = maxArraySize := hlen
  have hrecv : maxArraySize ∈ (SizeReader.digits past ds (c :: rest)).recv.stored := by
    rw [← hn]
    simp [SizeReader.recv, SizeReader.digits]
  have hswitch := storesAt_of_switch (s := (SizeReader.digits past ds (c :: rest)).recv)
  rw [← sizeRound_of_le hn.le] at hswitch
  cases hr : sizeRound (.digits past ds (c :: rest)) with
  | again s' => exact mem_stored_of_ends (h.of_again hr) ((hswitch.1 s' hr).mem hrecv)
  | exit r' =>
    rw [h.of_exit hr]
    exact (hswitch.2 r' hr).mem hrecv

/-- At the end of the stream a round looks at the byte that is there. -/
theorem sizeRound_nil {s : SizeReader} (hi : s.inp = []) (hn : s.nBytes = maxArraySize) :
    sizeRound s = sizeSwitch s ∧ s.current = s.past := by
  have hrecv : s.recv = s := by rw [SizeReader.recv, hi]
  exact ⟨by rw [sizeRound_of_le hn.le, hrecv], if_neg hn.not_lt⟩

/-- At the end of the stream, nothing is stored behind 8192 digits, and whatever the byte behind the
buffer is, the answer is the code for an error. -/
theorem ends_of_full (past : UInt8) (hlen : ds.length = maxArraySize) :
    ∃ s, Loop.Ends sizeRound (.digits past ds []) (errInvChar, s) ∧
      s.stored = List.range maxArraySize := by
  have hstored : (SizeReader.digits past ds []).stored = List.range maxArraySize := by
    rw [SizeReader.digits, hlen]
  obtain ⟨hround, hcur⟩ := sizeRound_nil (s := .digits past ds []) rfl hlen
  rw [sizeSwitch, hcur] at hround
  by_cases hd : isDigit past = true
  · refine ⟨_, .again (hround.trans (if_pos hd)) (.exit (sizeRound_of_gt ?_)), hstored⟩
    show maxArraySize < ds.length + 1
    omega
  · by_cases hcr : past = 13
    · obtain ⟨hround', hcur'⟩ := sizeRound_nil
        (s := { SizeReader.digits past ds [] with state := .endState }) rfl hlen
      rw [sizeSwitch, hcur'] at hround'
      have hlf : past ≠ 10 := by
        rw [hcr]
        decide
      exact ⟨_, .again (hround.trans ((if_neg hd).trans (if_pos hcr)))
        (.exit (hround'.trans (if_pos hlf))), hstored⟩
    · exact ⟨_, .exit (hround.trans ((if_neg hd).trans (if_neg hcr))), hstored⟩

end Digits

/-! ## Which streams stay inside -/

/-- Every store is inside the buffer, and a run of digits that is too long for it is answered with the
code for an error. -/
def StoresInside (bs : Bytes) : Prop :=
  ∀ past, ∃ n s, Loop.Ends sizeRound (.start past bs) (n, s) ∧
    (∀ i ∈ s.stored, i < maxArraySize) ∧
    (maxArraySize ≤ (bs.takeWhile isDigit).length → n = errInvChar)

/-- The first 8192 bytes of a stream that begins with that many digits. -/
theorem digits_of_run {bs : Bytes} (h : maxArraySize ≤ (bs.takeWhile isDigit).length) :
    (bs.take maxArraySize).length = maxArraySize ∧ ∀ c ∈ bs.take maxArraySize, isDigit c = true := by
  have hpre := List.takeWhile_prefix (l := bs) isDigit
  have hlen := hpre.length_le
  refine ⟨List.length_take_of_le (h.trans hlen), fun c hc => ?_⟩
  have htake : bs.take maxArraySize <+: bs.takeWhile isDigit :=
    List.prefix_of_prefix_length_le (List.take_prefix _ _) hpre (by simp; omega)
  exact List.mem_takeWhile_imp (htake.subset hc)

theorem not_storesInside {bs : Bytes} (h : maxArraySize ≤ (bs.takeWhile isDigit).length)
    (hlen : maxArraySize < bs.length) : ¬ StoresInside bs := by
  intro hin
  obtain ⟨n, s, hends, hlt, -⟩ := hin 0
  obtain ⟨hl, hd⟩ := digits_of_run h
  have hne : bs.take maxArraySize ≠ [] := by
    rw [← List.length_pos_iff, hl]
    decide
  have hreach := reaches_digits 0 (bs.drop maxArraySize) hne hd hl.le
  rw [List.take_append_drop, List.drop_eq_getElem_cons hlen] at hreach
  have hmem := mem_stored_of_full hl (hreach.ends_iff.mp hends)
  exact absurd (hlt _ hmem) (Nat.lt_irrefl _)

/-- All stores are inside exactly when fewer than 8192 digits lead, or the stream ends with them. -/
theorem storesInside_iff (bs : Bytes) :
    StoresInside bs ↔ (bs.takeWhile isDigit).length < maxArraySize ∨ bs.length ≤ maxArraySize := by
  constructor
  · intro h
    by_contra hn
    rw [not_or, Nat.not_lt, Nat.not_le] at hn
    exact not_storesInside hn.1 hn.2 h
  · intro h past
    by_cases hrun : (bs.takeWhile isDigit).length < maxArraySize
    · obtain ⟨n, w, hg⟩ : ∃ n w, getElSize ⟨Heap.empty, bs⟩ = .ok (n, w) :=
        getElSize_returns_iff.mpr hrun
      obtain ⟨s, hs, -, hin⟩ := ends_of_getElSize past hg
      exact ⟨n, s, hs, hin, fun hle => absurd hrun (Nat.not_lt.mpr hle)⟩
    · obtain ⟨hl, hd⟩ := digits_of_run (Nat.not_lt.mp hrun)
      rw [List.take_of_length_le (h.resolve_left hrun)] at hl hd
      have hne : bs ≠ [] := by
        rw [← List.length_pos_iff, hl]
        decide
      have hreach := reaches_digits past [] hne hd hl.le
      obtain ⟨s, hs, hstored⟩ := ends_of_full past hl
      rw [List.append_nil] at hreach
      refine ⟨errInvChar, s, hreach.ends_iff.mpr hs, fun i hi => ?_, fun _ => rfl⟩
      rw [hstored] at hi
      exact List.mem_range.mp hi

/-- 8192 zeros and CRLF. -/
theorem zeros_not_storesInside : ¬ StoresInside (List.replicate 8192 48 ++ [13, 10]) := by
  apply not_storesInside
  · rw [takeWhile_digits (fun c hc => by rw [List.eq_of_mem_replicate hc]; rfl), List.length_replicate]
    decide
  · rw [List.length_append, List.length_replicate]
    decide

end RedisImpl
