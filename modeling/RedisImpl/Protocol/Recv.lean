import RedisImpl.Protocol.Lexer
import RedisImpl.Server.Send

/-!
# Receiving

The reader of requests on a socket whose `recv` may fail, with the outcomes of the calls as the
environment (`RecvEnv`). A call fails with some `errno`, or it takes as many of the bytes that the
client has still to send as it likes, up to the number that was asked for. Taking none is how the
end of the stream shows.

`recv_resp_fm_clnt` tries again after some errors, and `read_exact_bytes` wants all of its bytes at
once. `get_el_size` calls `recv` itself and does not try again.

All functions that do not read from the socket are those of `Protocol/Lexer.lean`.
-/

namespace RedisImpl
namespace Recv

/-- The values of `errno` that `categorize_recv_error` tells apart. -/
inductive Errno where
  | eintr
  | eio
  | enobufs
  | other (code : Nat)
  deriving DecidableEq

/-- `categorize_recv_error`. -/
def categorizeRecvError : Errno → ErrorCategory
  | .eintr => .errorRecoverable
  | .eio => .errorRecoverable
  | .enobufs => .errorRecoverable
  | .other _ => .errorFatal

/-- What a `recv` does. -/
inductive RecvResult where
  | error (errno : Errno)
  | received (n : Nat)

/-- The outcome of the `k`-th `recv`, and of the allocation and the `msleep` after `k` calls.
`recv_resp_fm_clnt` calls `perror` after a `recv` that fails: the `errno` is the one that
`categorize_recv_error` reads, after `perror`. -/
structure RecvEnv where
  recv : Nat → RecvResult
  allocated : Nat → Bool
  slept : Nat → Bool

/-- The memory, the bytes that the client has still to send, and the number of calls so far. -/
structure Sock where
  world : World
  calls : Nat

abbrev SockM := StateT Sock (Except Fault)

/-- A computation that does not touch the socket. -/
def lift {α : Type} (x : M α) : SockM α := fun s =>
  (x s.world).map fun r => (r.1, { s with world := r.2 })

section Functions

variable (env : RecvEnv)

/-- `recv(fd, buf, size, flags)`. -/
def recv (size : Nat) : SockM (Except Errno Bytes) := fun s =>
  match env.recv s.calls with
  | .error errno => .ok (.error errno, { s with calls := s.calls + 1 })
  | .received n =>
    .ok (.ok (s.world.inp.take (min n size)),
      { world := { s.world with inp := s.world.inp.drop (min n size) }, calls := s.calls + 1 })

/-- The loop of `recv_resp_fm_clnt`, with the number of rounds that are left and the `errno` of the
call before. -/
def recvLoop (size : Nat) : (left : Nat) → Errno → SockM (Option Bytes)
  | 0, _ => return none
  | left + 1, errno => do
    let s ← get
    if !env.allocated s.calls then return none
    else if categorizeRecvError errno = .errorFatal || !env.slept s.calls then return none
    else
      match ← recv env size with
      | .ok got => return some got
      | .error errno => recvLoop size left errno

/-- `recv_resp_fm_clnt`: the bytes, of which it returns the number, or `none` for -1. -/
def recvRespFmClnt (size nRetries : Nat) : SockM (Option Bytes) := do
  match ← recv env size with
  | .ok got => return some got
  | .error errno => recvLoop env size nRetries errno

/-- `read_exact_bytes`: what it returns, and the buffer. -/
def readExactBytes (len : Nat) : SockM (Int × Bytes) := do
  match ← recvRespFmClnt env len 3 with
  | none => return (-1, [])
  | some got =>
    if got.length = 0 then return (0, got)
    else if got.length < len then return (0, got)
    else return (1, got)

/-- `is_valid_terminator`. -/
def isValidTerminator : SockM Bool := do
  let (rtn, nextChar) ← readExactBytes env 1
  if rtn = 0 ∨ rtn = -1 then return false
  else if nextChar ≠ [13] then return false
  else
    let (rtn, nextChar) ← readExactBytes env 1
    if rtn = 0 ∨ rtn = -1 then return false
    else return nextChar = [10]

/-- `recv(fd, &buf[i], 1, 0)`, and `none` for -1. The byte `buf[i]` is read right after it if it
does not return -1. -/
def recvByte (buf : Bytes) (i : Nat) : SockM (Option Bytes) := do
  match ← recv env 1 with
  | .error _ => return none
  | .ok got =>
    if maxArraySize ≤ i then throw .outOfBounds
    else
      match got with
      | [] => return some buf
      | c :: _ => return some (bufPut buf i c)

/-- The loop of `get_el_size`. -/
def getElSizeLoop : Nat → ArraySizeStates → (isNegative : Bool) → (nBytes : Nat) → Bytes → SockM Int
  | 0, _, _, _, _ => throw .timeout
  | fuel + 1, state, isNegative, nBytes, buf => do
    if nBytes > maxArraySize then return errInvChar
    else
      match ← recvByte env buf nBytes with
      | none => return errInvChar
      | some buf =>
        match state with
        | .startState =>
          if isDigit (bufAt buf 0) then getElSizeLoop fuel .digitState isNegative (nBytes + 1) buf
          else if bufAt buf 0 = 45 then getElSizeLoop fuel .negDigitStateI true nBytes buf
          else return errInvChar
        | .digitState =>
          if isDigit (bufAt buf nBytes) then
            getElSizeLoop fuel .digitState isNegative (nBytes + 1) buf
          else if bufAt buf nBytes = 13 then getElSizeLoop fuel .endState isNegative nBytes buf
          else return errInvChar
        | .negDigitStateI =>
          if bufAt buf nBytes ≠ 49 then return errInvChar
          else getElSizeLoop fuel .negDigitStateII isNegative (nBytes + 1) buf
        | .negDigitStateII =>
          if bufAt buf nBytes ≠ 13 then return errInvChar
          else getElSizeLoop fuel .endState isNegative nBytes buf
        | .endState =>
          if bufAt buf nBytes ≠ 10 then return errInvChar
          else
            let arrSize := stringToUint (bufPut buf nBytes 0)
            return (if isNegative then -1 * arrSize else arrSize).toInt

/-- `get_el_size`. -/
def getElSize : SockM Int := fun s =>
  getElSizeLoop env (s.world.inp.length + 3) .startState false 0 [] s

/-- `lex_bulk_str`. -/
def lexBulkStr : SockM Ptr := do
  let strSize ← getElSize env
  if strSize = errInvChar then return none
  else if strSize = 0 then
    if !(← isValidTerminator env) then return none
    else lift (do
      let empStr ← alloc (.chars [0])
      newBulkStr empStr none none 0)
  else if strSize = -1 then lift (newBulkStr none none none (-1))
  else if strSize > protoMaxBulkSize then return none
  else if strSize < 0 then return none
  else
    let buf ← lift (alloc (.chars (List.replicate (strSize.toNat + 1) 0)))
    let (rtn, bytes) ← readExactBytes env strSize.toNat
    if rtn = 0 ∨ rtn = -1 then lift (do
      free buf
      return none)
    else
      lift (store buf (.chars (bytes ++ [0])))
      if !(← isValidTerminator env) then lift (do
        free buf
        return none)
      else lift (newBulkStr buf none none strSize)

variable (unset : Heap Cell → Ptr)

/-- The value of `current` after the `switch` of `lexer`. What it holds when it was not set does not
depend on bytes that have not arrived. -/
def lexCurrent (lexer : SockM Ptr) (nextChar : UInt8) : SockM Ptr :=
  if nextChar = dollarByte then lexBulkStr env
  else if nextChar = asteriskByte then lexer
  else lift fun w => .ok (unset w.heap, w)

/-- The loop of `lexer`, with the number of elements that are left. -/
def lexElements (lexer : SockM Ptr) (arrSize : Int) : Nat → (array previous : Ptr) → SockM Ptr
  | 0, array, _ => return array
  | left + 1, array, previous => do
    let (rtn, nextChar) ← readExactBytes env 1
    if rtn = 0 ∨ rtn = -1 then lift (do
      deleteArray previous
      return none)
    else
      let current ← lexCurrent env unset lexer (nextChar.headD 0)
      if current.isNone then lift (do
        deleteArray previous
        return none)
      else
        let array ← lift (linkElement arrSize array previous current)
        lexElements lexer arrSize left array current

/-- `lexer`, with a bound on how deep it goes. -/
def lexerLoop : Nat → SockM Ptr
  | 0 => throw .timeout
  | fuel + 1 => do
    let arrSize ← getElSize env
    if arrSize = errInvChar then return none
    else if arrSize = -1 then lift (do
      let node ← newBaseNode .nillArray none none
      newArray node none none 1)
    else if arrSize = 0 then lift (do
      let node ← newBaseNode .emptyArray none none
      newArray node none none 1)
    else
      lexElements env unset (lexerLoop fuel) arrSize (BitVec.ofInt 32 arrSize).toNat none none

/-- `lexer`. -/
def lexer : SockM Ptr := fun s => lexerLoop env unset (s.world.inp.length + 1) s

end Functions

end Recv
end RedisImpl
