import RedisImpl.Protocol.Prefix

/-!
# Size prefixes on a socket that fails

`get_el_size` on a socket, as the function on a part of the input (`getElSize_acts`). When `recv`
fails right behind 8192 digits, the function returns, while at the end of the input it looks at the
byte behind its buffer: this failure is as an end of the input one byte before.
-/

namespace RedisImpl
namespace Recv

/-- What a round of `get_el_size` comes to: a result, or the next state. -/
inductive Round where
  | ret (n : Int)
  | next (state : ArraySizeStates) (isNegative : Bool) (nBytes : Nat)

/-- A round after its `recv`. -/
def sizeRound (state : ArraySizeStates) (isNegative : Bool) (nBytes : Nat) (buf : Bytes) : Round :=
  match state with
  | .startState =>
    if isDigit (bufAt buf 0) then .next .digitState isNegative (nBytes + 1)
    else if bufAt buf 0 = 45 then .next .negDigitStateI true nBytes
    else .ret errInvChar
  | .digitState =>
    if isDigit (bufAt buf nBytes) then .next .digitState isNegative (nBytes + 1)
    else if bufAt buf nBytes = 13 then .next .endState isNegative nBytes
    else .ret errInvChar
  | .negDigitStateI =>
    if bufAt buf nBytes ≠ 49 then .ret errInvChar
    else .next .negDigitStateII isNegative (nBytes + 1)
  | .negDigitStateII =>
    if bufAt buf nBytes ≠ 13 then .ret errInvChar
    else .next .endState isNegative nBytes
  | .endState =>
    if bufAt buf nBytes ≠ 10 then .ret errInvChar
    else .ret (if isNegative then -1 * stringToUint (bufPut buf nBytes 0)
      else stringToUint (bufPut buf nBytes 0)).toInt

/-- The buffer before a round. -/
def Filled : ArraySizeStates → Nat → Bytes → Prop
  | .startState, n, buf => n = 0 ∧ buf = []
  | .digitState, n, buf => buf.length = n
  | .negDigitStateI, n, buf => n = 0 ∧ buf = [45]
  | .negDigitStateII, n, buf => buf.length = n
  | .endState, n, buf => bufAt buf n = 13

section Round

variable {state state' : ArraySizeStates} {isNegative isNegative' : Bool} {nBytes nBytes' : Nat}
  {buf : Bytes}

theorem getElSizeLoop_succ (hn : nBytes ≤ maxArraySize) (fuel : Nat) :
    RedisImpl.getElSizeLoop (fuel + 1) state isNegative nBytes buf =
      RedisImpl.recvByte buf nBytes >>= fun buf =>
        match sizeRound state isNegative nBytes buf with
        | .ret n => pure n
        | .next state isNegative nBytes =>
          RedisImpl.getElSizeLoop fuel state isNegative nBytes buf := by
  rw [RedisImpl.getElSizeLoop, if_neg (Nat.not_lt.mpr hn)]
  congr 1
  funext buf
  cases state <;> simp only [sizeRound] <;> split_ifs <;> rfl

theorem loop_succ (env : RecvEnv) (hn : nBytes ≤ maxArraySize) (fuel : Nat) :
    getElSizeLoop env (fuel + 1) state isNegative nBytes buf =
      recvByte env buf nBytes >>= fun o =>
        match o with
        | none => pure errInvChar
        | some buf =>
          match sizeRound state isNegative nBytes buf with
          | .ret n => pure n
          | .next state isNegative nBytes => getElSizeLoop env fuel state isNegative nBytes buf := by
  rw [getElSizeLoop, if_neg (Nat.not_lt.mpr hn)]
  congr 1
  funext o
  cases o with
  | none => rfl
  | some buf => cases state <;> simp only [sizeRound] <;> split_ifs <;> rfl

/-- A round that looks at the old byte. -/
theorem sizeRound_filled (h : Filled state nBytes buf) :
    sizeRound state isNegative nBytes buf = .ret errInvChar := by
  cases state with
  | startState =>
    obtain ⟨rfl, rfl⟩ := h
    rfl
  | digitState =>
    have hz : bufAt buf nBytes = 0 := by
      rw [← show buf.length = nBytes from h]
      exact bufAt_length buf
    simp only [sizeRound, hz]
    rfl
  | negDigitStateI =>
    obtain ⟨rfl, rfl⟩ := h
    rfl
  | negDigitStateII =>
    have hz : bufAt buf nBytes = 0 := by
      rw [← show buf.length = nBytes from h]
      exact bufAt_length buf
    simp only [sizeRound, hz]
    rfl
  | endState =>
    have hz : bufAt buf nBytes = 13 := h
    simp only [sizeRound, hz]
    rfl

/-- A round that looks at a new byte. -/
theorem sizeRound_next {b : UInt8} (h : Filled state nBytes buf)
    (hr : sizeRound state isNegative nBytes (bufPut buf nBytes b) =
      .next state' isNegative' nBytes') :
    nBytes' ≤ nBytes + 1 ∧ Filled state' nBytes' (bufPut buf nBytes b) := by
  cases state with
  | startState =>
    obtain ⟨rfl, rfl⟩ := h
    simp only [sizeRound] at hr
    split_ifs at hr with hd hm
    · cases hr
      exact ⟨Nat.le_refl _, rfl⟩
    · cases hr
      exact ⟨Nat.zero_le _, rfl, by rw [← hm]; rfl⟩
  | digitState =>
    obtain rfl : buf.length = nBytes := h
    simp only [sizeRound] at hr
    split_ifs at hr with hd hm
    · cases hr
      exact ⟨Nat.le_refl _, by simp [Filled]⟩
    · cases hr
      exact ⟨Nat.le_succ _, hm⟩
  | negDigitStateI =>
    obtain ⟨rfl, rfl⟩ := h
    simp only [sizeRound] at hr
    split_ifs at hr with hd
    cases hr
    exact ⟨Nat.le_refl _, rfl⟩
  | negDigitStateII =>
    simp only [sizeRound] at hr
    split_ifs at hr with hd
    cases hr
    exact ⟨Nat.le_succ _, not_not.mp hd⟩
  | endState =>
    simp only [sizeRound] at hr
    split_ifs at hr

/-- At the end of the input. -/
theorem getElSizeLoop_nil (hn : nBytes < maxArraySize) (h : Filled state nBytes buf) (fuel : Nat)
    (heap : Heap Cell) :
    RedisImpl.getElSizeLoop (fuel + 1) state isNegative nBytes buf ⟨heap, []⟩ =
      .ok (errInvChar, ⟨heap, []⟩) := by
  rw [getElSizeLoop_succ (Nat.le_of_lt hn), M.bind_ok (recvByte_nil hn rfl), sizeRound_filled h]
  rfl

end Round

section Size

variable (env : RecvEnv) {state : ArraySizeStates} {isNegative : Bool} {nBytes : Nat} {buf : Bytes}

/-- The `recv` of a round fails, finds the end of the input, or takes a byte. -/
theorem recvByte_spec (buf : Bytes) (i : Nat) (s : Sock) :
    (∃ k, recvByte env buf i s = .ok (none, ⟨s.world, k⟩)) ∨
      (maxArraySize ≤ i ∧ recvByte env buf i s = .error .outOfBounds) ∨
      (i < maxArraySize ∧ ((∃ k, recvByte env buf i s = .ok (some buf, ⟨s.world, k⟩)) ∨
        ∃ b rest k, s.world.inp = b :: rest ∧
          recvByte env buf i s = .ok (some (bufPut buf i b), ⟨⟨s.world.heap, rest⟩, k⟩))) := by
  unfold recvByte
  rcases recv_spec env 1 s with ⟨errno, k, hr⟩ | ⟨got, rest, k, hr, n, hn, hgot, hrest⟩
  · rw [SockM.bind_ok hr]
    exact .inl ⟨k, rfl⟩
  · rw [SockM.bind_ok hr]
    simp only []
    rcases Nat.lt_or_ge i maxArraySize with hi | hi
    · rw [if_neg (Nat.not_le.mpr hi)]
      refine .inr (.inr ⟨hi, ?_⟩)
      obtain ⟨⟨heap, inp⟩, calls⟩ := s
      rcases Nat.le_one_iff_eq_zero_or_eq_one.mp hn with rfl | rfl
      · rw [hgot, hrest]
        exact .inl ⟨k, rfl⟩
      · cases inp with
        | nil =>
          rw [hgot, hrest]
          exact .inl ⟨k, rfl⟩
        | cons b rest =>
          rw [hgot, hrest]
          exact .inr ⟨b, rest, k, rfl, rfl⟩
    · rw [if_pos hi]
      exact .inr (.inl ⟨hi, rfl⟩)

/-- The loop acts on some beginning of the input, unless a `recv` behind 8192 digits failed. -/
theorem getElSizeLoop_does {fuel : Nat} {s : Sock} (hf : s.world.inp.length < fuel)
    (hn : nBytes ≤ maxArraySize) (hfilled : Filled state nBytes buf) :
    Does 1 (· = errInvChar) s (getElSizeLoop env fuel state isNegative nBytes buf s)
        (fun f => RedisImpl.getElSizeLoop (f + 2) state isNegative nBytes buf) ∨
      nBytes = maxArraySize ∧ ∃ s', s'.world.heap = s.world.heap ∧
        getElSizeLoop env fuel state isNegative nBytes buf s = .ok (errInvChar, s') := by
  induction fuel generalizing s state isNegative nBytes buf with
  | zero => exact absurd hf (Nat.not_lt_zero _)
  | succ fuel ih =>
    -- the end of the input, for `get_el_size` on a part of it
    have hend (hlt : nBytes < maxArraySize) {s' : Sock} (hs' : s'.world.heap = s.world.heap) :
        Does 1 (· = errInvChar) s (.ok (errInvChar, s'))
          fun f => RedisImpl.getElSizeLoop (f + 2) state isNegative nBytes buf := by
      refine .inr ⟨rfl, [], List.nil_prefix, fun f _ => ?_⟩
      rw [hs']
      exact getElSizeLoop_nil hlt hfilled (f + 1) s.world.heap
    rw [loop_succ env hn]
    rcases recvByte_spec env buf nBytes s with ⟨k, hr⟩ | ⟨hmax, hr⟩ | ⟨hlt, ⟨k, hr⟩ | ⟨b, rest, k, hinp, hr⟩⟩
    · -- the `recv` failed, which on a part of the input is its end
      rw [SockM.bind_ok hr]
      rcases Nat.lt_or_eq_of_le hn with hlt | hmax
      · exact .inl (hend hlt rfl)
      · exact .inr ⟨hmax, ⟨s.world, k⟩, rfl, rfl⟩
    · -- the byte does not fit into the buffer
      rw [SockM.bind_error hr]
      refine .inl ⟨[], List.nil_prefix, fun f _ => ?_⟩
      show RedisImpl.getElSizeLoop (f + 2) state isNegative nBytes buf _ = _
      rw [getElSizeLoop_succ hn]
      refine M.bind_error ?_
      rw [RedisImpl.recvByte, if_pos hmax]
    · rw [SockM.bind_ok hr]
      simp only [sizeRound_filled hfilled]
      exact .inl (hend hlt rfl)
    · rw [SockM.bind_ok hr]
      have hbyte (r : Bytes) : RedisImpl.recvByte buf nBytes ⟨s.world.heap, [b] ++ r⟩ =
          .ok (bufPut buf nBytes b, ⟨s.world.heap, r⟩) := recvByte_cons hlt rfl
      cases hround : sizeRound state isNegative nBytes (bufPut buf nBytes b) with
      | ret n =>
        simp only [hround]
        refine .inl (.inl ⟨[b], Nat.le_refl 1, hinp, fun f r _ => ?_⟩)
        show RedisImpl.getElSizeLoop (f + 2) state isNegative nBytes buf _ = _
        rw [getElSizeLoop_succ hn, M.bind_ok (hbyte r), hround]
        rfl
      | next state' isNegative' nBytes' =>
        obtain ⟨hn', hfilled'⟩ := sizeRound_next hfilled hround
        have hf' : rest.length < fuel := by
          rw [hinp, List.length_cons] at hf
          omega
        have hih := @ih state' isNegative' nBytes' (bufPut buf nBytes b)
          ⟨⟨s.world.heap, rest⟩, k⟩ hf' (Nat.le_trans hn' hlt) hfilled'
        simp only [hround]
        rcases hih with hdoes | ⟨-, s', hs', hrun⟩
        · let k (buf : Bytes) (f : Nat) : M Int :=
            match sizeRound state isNegative nBytes buf with
            | .ret n => pure n
            | .next state isNegative nBytes =>
              RedisImpl.getElSizeLoop (f + 2) state isNegative nBytes buf
          have hk : k (bufPut buf nBytes b) = fun f =>
              RedisImpl.getElSizeLoop (f + 2) state' isNegative' nBytes' (bufPut buf nBytes b) := by
            funext f
            simp only [k, hround]
          rw [← hk] at hdoes
          have hafter := hdoes.after (s := s) (d := 1) (c := [b]) (x := fun _ => RedisImpl.recvByte buf nBytes)
            (Nat.le_refl 1) hinp fun _ r _ => hbyte r
          refine .inl ((hafter.le (Nat.le_succ 1)).congr fun f => ?_)
          exact (getElSizeLoop_succ hn (f + 2)).symm
        · -- a later round was broken off: then so is this one, with nothing taken
          rw [hrun]
          exact .inl (hend hlt hs')

/-- `get_el_size` takes a byte at least, if it is not broken off. -/
theorem getElSize_acts {m : Nat} :
    Acts m 1 (· = errInvChar) (getElSize env) fun _ => RedisImpl.getElSize := by
  intro s _
  have hfuel : s.world.inp.length < s.world.inp.length + 3 := by omega
  have hstart : Filled .startState 0 [] := ⟨rfl, rfl⟩
  rcases getElSizeLoop_does env hfuel (Nat.zero_le _) hstart with hdoes | ⟨hmax, -⟩
  · exact hdoes.at_length fun _ => rfl
  · exact absurd hmax (by decide)

end Size

end Recv
end RedisImpl
