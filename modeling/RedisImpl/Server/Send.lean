import RedisImpl.Lib.Bytes

/-!
# Sending a reply

`send_resp_to_clnt` with the outcomes of the calls that it makes as its environment: each `send`
fails with some `errno` or accepts a number of bytes, not more than it was given; the record of an
error may not be allocated, and `msleep` may fail. `Sent` is what it returns, the bytes that the
socket accepted over all calls, and the number of calls that failed.

The function stops at the first `send` that does not fail, also when that accepted a part of the
buffer only.
-/

namespace RedisImpl

/-- The values of `errno` that the code tells apart. -/
inductive Errno where
  | eintr
  | enobufs
  | emsgsize
  | ewouldblock
  | other (code : Nat)
  deriving DecidableEq

/-- `ErrorCategory`. -/
inductive ErrorCategory where
  | errorRecoverable
  | errorFatal
  deriving DecidableEq

/-- `categorize_send_error`. -/
def categorizeSendError : Errno → ErrorCategory
  | .eintr => .errorRecoverable
  | .enobufs => .errorRecoverable
  | .emsgsize => .errorRecoverable
  | .ewouldblock => .errorRecoverable
  | .other _ => .errorFatal

/-- What a `send` of `size` bytes does: a call that does not fail accepts a byte at least, if there
is one. -/
inductive SendResult (size : Nat) where
  | error (errno : Errno)
  | accepted (n : Nat) (le : n ≤ size) (pos : 0 < n ∨ size = 0)

/-- The outcomes of the calls: of the `k`-th `send`, and in the `i`-th round of the loop of the
allocation in `categorize_send_error` and of `msleep`. `send_resp_to_clnt` calls `perror` after the
first `send` if it fails: the `errno` is the one that `categorize_send_error` reads, after `perror`. -/
structure SendEnv (size : Nat) where
  send : Nat → SendResult size
  allocated : Nat → Bool
  slept : Nat → Bool

structure Sent where
  rtn : Int
  accepted : Bytes
  errors : Nat
  deriving DecidableEq

section Send

variable (buf : Bytes) (env : SendEnv buf.length)

/-- The `k`-th call of `send`. -/
def sendCall (k : Nat) (s : Sent) : Sent :=
  match env.send k with
  | .error _ => { s with rtn := -1, errors := s.errors + 1 }
  | .accepted n _ _ => { s with rtn := n, accepted := s.accepted ++ buf.take n }

/-- The loop of `send_resp_to_clnt` from its round `i` on, with the number of rounds that are left
and the `errno` of the call before. -/
def sendLoop : (left i : Nat) → (errno : Errno) → Sent → Sent
  | 0, _, _, s => s
  | left + 1, i, errno, s =>
    if !env.allocated i then s
    else if categorizeSendError errno = .errorFatal || !env.slept i then s
    else
      match env.send (i + 1) with
      | .error errno => sendLoop left (i + 1) errno (sendCall buf env (i + 1) s)
      | .accepted _ _ _ => sendCall buf env (i + 1) s

/-- `send_resp_to_clnt`. -/
def sendRespToClnt (nRetries : Nat) : Sent :=
  let s := sendCall buf env 0 ⟨0, [], 0⟩
  match env.send 0 with
  | .error errno => sendLoop buf env nRetries 0 errno s
  | .accepted _ _ _ => s

/-- Each round adds an error at most. -/
theorem errors_sendLoop_le (left i : Nat) (errno : Errno) (s : Sent) :
    (sendLoop buf env left i errno s).errors ≤ s.errors + left := by
  induction left generalizing i errno s with
  | zero => exact le_rfl
  | succ left ih =>
    rw [sendLoop]
    split_ifs
    · omega
    · omega
    · cases hs : env.send (i + 1) with
      | error e =>
        have h := ih (i + 1) e (sendCall buf env (i + 1) s)
        simp only [sendCall, hs] at h ⊢
        omega
      | accepted n hle hpos =>
        simp only [sendCall, hs]
        omega

/-- At most `n_retries + 1` calls fail. -/
theorem errors_sendRespToClnt_le (nRetries : Nat) :
    (sendRespToClnt buf env nRetries).errors ≤ nRetries + 1 := by
  cases hs : env.send 0 with
  | error e =>
    have h := errors_sendLoop_le buf env nRetries 0 e (sendCall buf env 0 ⟨0, [], 0⟩)
    simp only [sendRespToClnt, sendCall, hs] at h ⊢
    omega
  | accepted n hle hpos =>
    simp only [sendRespToClnt, sendCall, hs]
    omega

variable {buf env}

/-- The call before round `i` failed with an error that is retried there. -/
def RetriedAt {size : Nat} (env : SendEnv size) (i : Nat) (errno : Errno) : Prop :=
  categorizeSendError errno = .errorRecoverable ∧ env.allocated i = true ∧ env.slept i = true

/-- The calls from `i` on are retried up to the call `k`. -/
def Retried {size : Nat} (env : SendEnv size) (i k : Nat) : Prop :=
  ∀ j, i ≤ j → j < k → ∃ errno, env.send j = .error errno ∧ RetriedAt env j errno

theorem sendLoop_succ {left i : Nat} {errno : Errno} {s : Sent} (h : RetriedAt env i errno) :
    sendLoop buf env (left + 1) i errno s =
      match env.send (i + 1) with
      | .error errno => sendLoop buf env left (i + 1) errno (sendCall buf env (i + 1) s)
      | .accepted _ _ _ => sendCall buf env (i + 1) s := by
  obtain ⟨hc, ha, hs⟩ := h
  rw [sendLoop, if_neg (by simp [ha]), if_neg (by simp [hc, hs])]

theorem sendLoop_stop {left i : Nat} {errno : Errno} {s : Sent} (h : ¬ RetriedAt env i errno) :
    sendLoop buf env (left + 1) i errno s = s := by
  rw [sendLoop]
  split_ifs with ha hc
  · rfl
  · rfl
  · exfalso
    simp only [Bool.not_eq_true', Bool.not_eq_false, Bool.or_eq_true, decide_eq_true_eq, not_or]
      at ha hc
    refine h ⟨?_, ha, hc.2⟩
    cases he : categorizeSendError errno with
    | errorRecoverable => rfl
    | errorFatal => exact absurd he hc.1

/-- The loop comes to a call that accepts bytes, and stops there. -/
theorem sendLoop_accepted {left i k n : Nat} {errno : Errno} {s : Sent} {hle : n ≤ buf.length}
    {hpos : 0 < n ∨ buf.length = 0} (hik : i < k) (hk : k ≤ i + left)
    (hi : env.send i = .error errno)
    (hret : Retried env i k) (hs : env.send k = .accepted n hle hpos) :
    (sendLoop buf env left i errno s).rtn = n ∧
      (sendLoop buf env left i errno s).accepted = s.accepted ++ buf.take n := by
  induction left generalizing i errno s with
  | zero => omega
  | succ left ih =>
    obtain ⟨e, he, hr⟩ := hret i le_rfl hik
    rw [hi] at he
    cases he
    rw [sendLoop_succ hr]
    by_cases heq : k = i + 1
    · subst heq
      simp [hs, sendCall]
    · obtain ⟨e', he', -⟩ := hret (i + 1) (by omega) (by omega)
      simp only [he']
      have h := ih (s := sendCall buf env (i + 1) s) (by omega) (by omega) he'
        (fun j hj hjk => hret j (by omega) hjk)
      rw [h.1, h.2]
      simp [sendCall, he']

/-- A loop that does not return -1 came to a call that accepted bytes. -/
theorem exists_accepted {left i : Nat} {errno : Errno} {s : Sent} (hi : env.send i = .error errno)
    (hs : s.rtn = -1) (hrtn : (sendLoop buf env left i errno s).rtn ≠ -1) :
    ∃ k n hle hpos, k ≤ i + left ∧ Retried env i k ∧ env.send k = .accepted n hle hpos ∧
      (sendLoop buf env left i errno s).accepted = s.accepted ++ buf.take n := by
  induction left generalizing i errno s with
  | zero => exact absurd hs hrtn
  | succ left ih =>
    by_cases hr : RetriedAt env i errno
    · rw [sendLoop_succ hr] at hrtn ⊢
      cases hn : env.send (i + 1) with
      | accepted n hle hpos =>
        refine ⟨i + 1, n, hle, hpos, by omega, fun j hj hjk => ?_, hn, by simp [sendCall, hn]⟩
        obtain rfl : j = i := by omega
        exact ⟨errno, hi, hr⟩
      | error e =>
        simp only [hn] at hrtn ⊢
        obtain ⟨k, n, hle, hpos, hk, hret, hacc, hsent⟩ := ih hn (by simp [sendCall, hn]) hrtn
        refine ⟨k, n, hle, hpos, by omega, fun j hj hjk => ?_, hacc, ?_⟩
        · rcases Nat.eq_or_lt_of_le hj with rfl | hlt
          · exact ⟨errno, hi, hr⟩
          · exact hret j hlt hjk
        · rw [hsent]
          simp [sendCall, hn]
    · rw [sendLoop_stop hr] at hrtn
      exact absurd hs hrtn

/-- `send_resp_to_clnt` does not return -1 exactly when it comes to a call that accepts bytes. It
stops there. -/
theorem sendRespToClnt_spec (buf : Bytes) (env : SendEnv buf.length) (nRetries : Nat) :
    (∀ k n hle hpos, k ≤ nRetries → Retried env 0 k → env.send k = .accepted n hle hpos →
      (sendRespToClnt buf env nRetries).rtn = n ∧
        (sendRespToClnt buf env nRetries).accepted = buf.take n) ∧
    ((sendRespToClnt buf env nRetries).rtn ≠ -1 → ∃ k n hle hpos, k ≤ nRetries ∧
      Retried env 0 k ∧ env.send k = .accepted n hle hpos ∧
        (sendRespToClnt buf env nRetries).accepted = buf.take n) := by
  cases h0 : env.send 0 with
  | accepted m hm hmp =>
    have hrun : sendRespToClnt buf env nRetries = ⟨m, buf.take m, 0⟩ := by
      simp [sendRespToClnt, sendCall, h0]
    rw [hrun]
    refine ⟨fun k n hle hpos _ hret hs => ?_, fun _ => ⟨0, m, hm, hmp, Nat.zero_le _, ?_, h0, rfl⟩⟩
    · rcases Nat.eq_zero_or_pos k with rfl | hk
      · rw [h0] at hs
        cases hs
        exact ⟨rfl, rfl⟩
      · obtain ⟨e, he, -⟩ := hret 0 le_rfl hk
        rw [h0] at he
        cases he
    · intro j _ hj
      omega
  | error e =>
    have hrun : sendRespToClnt buf env nRetries = sendLoop buf env nRetries 0 e ⟨-1, [], 1⟩ := by
      simp [sendRespToClnt, sendCall, h0]
    rw [hrun]
    refine ⟨fun k n hle hpos hk hret hs => ?_, fun hrtn => ?_⟩
    · have hk0 : 0 < k := by
        rcases Nat.eq_zero_or_pos k with rfl | hk0
        · rw [h0] at hs
          cases hs
        · exact hk0
      exact sendLoop_accepted hk0 (by omega) h0 hret hs
    · obtain ⟨k, n, hle, hpos, hk, hret, hs, hsent⟩ := exists_accepted h0 rfl hrtn
      exact ⟨k, n, hle, hpos, by omega, hret, hs, hsent⟩

end Send

/-- When the function says that it has sent the buffer, the socket has accepted all of it, once and in
order. -/
def SendsAll (buf : Bytes) (env : SendEnv buf.length) (nRetries : Nat) : Prop :=
  (sendRespToClnt buf env nRetries).rtn ≠ -1 → (sendRespToClnt buf env nRetries).accepted = buf

/-- The first call that accepts bytes, if the function comes to one, accepts all of them. -/
def FirstComplete {size : Nat} (env : SendEnv size) (nRetries : Nat) : Prop :=
  ∀ k n hle hpos, k ≤ nRetries → Retried env 0 k → env.send k = .accepted n hle hpos → n = size

/-- At most `n_retries + 1` calls fail, and what is returned says that the buffer was sent if and only
if the first call that accepts bytes accepts all of them. -/
theorem sendsAll_iff (buf : Bytes) (env : SendEnv buf.length) (nRetries : Nat) :
    (sendRespToClnt buf env nRetries).errors ≤ nRetries + 1 ∧
      (SendsAll buf env nRetries ↔ FirstComplete env nRetries) := by
  refine ⟨errors_sendRespToClnt_le buf env nRetries, ?_⟩
  obtain ⟨hsent, hex⟩ := sendRespToClnt_spec buf env nRetries
  constructor
  · intro h k n hle hpos hk hret hs
    obtain ⟨hrtn, hacc⟩ := hsent k n hle hpos hk hret hs
    have hall : buf.take n = buf := hacc ▸ h (by rw [hrtn]; omega)
    have hlen := congrArg List.length hall
    rw [List.length_take_of_le hle] at hlen
    exact hlen
  · intro h hrtn
    obtain ⟨k, n, hle, hpos, hk, hret, hs, hacc⟩ := hex hrtn
    rw [hacc, h k n hle hpos hk hret hs, List.take_length]

/-- Of the two bytes of the buffer, the socket accepts one. -/
def oneByteEnv : SendEnv 2 where
  send _ := .accepted 1 (by decide) (by decide)
  allocated _ := true
  slept _ := true

/-- It returns 1, and the second byte is not sent. -/
theorem oneByte_not_sendsAll : ¬ SendsAll [43, 79] oneByteEnv 3 := by
  intro h
  have := h (by decide)
  revert this
  decide

end RedisImpl
