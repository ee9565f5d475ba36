import RedisImpl.Lib.Loop
import RedisImpl.Platform
import RedisImpl.Rdb.Length

/-!
# The auxiliary fields of an RDB file

`handle_aux_state` and `parse_aux`: strings that are alternately the key and the value of a field, up
to the next opcode. `RdbState` is what the functions share: the two state bytes, the flag that says
whether the file is correct, the rest of the file, and the calls of `auxiliary_field_settings` that
were made, with the buffers that they were given (NULL is `none`).

`handle_aux_state` gets both bytes as plain `char`s. `char` is signed, so that the opcode `0xFA`
is -6 there, and differs from `AUX`.
-/

namespace RedisImpl

/-- `RedisOpCodes`. -/
inductive RedisOpCode where
  | aux
  | resizeDb
  | expireTimeMs
  | expireTime
  | selectDb
  | eof
  deriving DecidableEq

/-- The value of the enumerator. -/
def RedisOpCode.code : RedisOpCode → Int
  | aux => 0xFA
  | resizeDb => 0xFB
  | expireTimeMs => 0xFC
  | expireTime => 0xFD
  | selectDb => 0xFE
  | eof => 0xFF

/-- `KeyValueStatesRdb`. -/
inductive KeyValueStateRdb where
  | readingKey
  | readingValue
  deriving DecidableEq

structure RdbState where
  prevState : UInt8
  nextState : UInt8
  isRdbFileCorrect : Bool
  fp : Bytes
  settings : List (Option Bytes × Option Bytes)
  deriving DecidableEq

def RdbState.incorrect (st : RdbState) : RdbState := { st with isRdbFileCorrect := false }

/-- `is_next_state_an_opcode`. -/
def isNextStateAnOpcode (byte : UInt8) : Bool :=
  [RedisOpCode.selectDb, .aux, .resizeDb, .expireTimeMs, .expireTime, .eof].any
    fun op => op.code = byte.toNat

/-- `get_str`: what the buffer holds afterwards. -/
def getStr (string : Option Bytes) (size : Nat) (st : RdbState) : Option Bytes × RdbState :=
  match string with
  | none => (none, st)
  | some buf =>
    if size = 0 then (some buf, st)
    else
      let (read, fp) := fread size st.fp
      let buf := read ++ buf.drop read.length
      if read.length < size then (some buf, { st with isRdbFileCorrect := false, fp := fp })
      else (some (buf.set size 0), { st with fp := fp })

/-- The variables of the loop of `parse_aux`. -/
structure AuxLoop where
  rdb : RdbState
  nextReadingState : KeyValueStateRdb
  kvpArr : Option Bytes × Option Bytes
  deriving DecidableEq

/-- `label_len_encoding_and_get_str`. -/
def labelLenEncodingAndGetStr (st : AuxLoop) (rdb : RdbLengthEncoding) (buf : Option Bytes) :
    AuxLoop :=
  match rdb.encodingType with
  | .redisRdb6BitLen | .redisRdb14BitLen | .redisRdb32BitLen =>
    let (string, s) := getStr buf (sizeT rdb.lengthOrFormat) st.rdb
    if st.nextReadingState = .readingKey then ⟨s, .readingValue, (string, st.kvpArr.2)⟩
    else ⟨s, .readingKey, (st.kvpArr.1, string)⟩
  | .redisSpecialFormat => { st with rdb := st.rdb.incorrect }

/-- The call of `auxiliary_field_settings`, when a key and its value were read. -/
def auxiliaryFieldSettings (st : AuxLoop) : AuxLoop :=
  if st.nextReadingState = .readingKey ∧ st.rdb.isRdbFileCorrect then
    { st with
      rdb := { st.rdb with settings := st.rdb.settings ++ [st.kvpArr] }
      kvpArr := (none, none) }
  else st

/-- The end of a round: the byte that is looked at next. -/
def lookAhead (st : AuxLoop) : Round AuxLoop RdbState :=
  match fread 1 st.rdb.fp with
  | ([byte], fp) =>
    let rdb := { st.rdb with nextState := byte, fp := fp }
    if isNextStateAnOpcode byte then .exit rdb else .again { st with rdb := rdb }
  | (_, fp) => .exit { st.rdb with isRdbFileCorrect := false, fp := fp }

/-- A round of the loop of `parse_aux`. -/
def auxRound (st : AuxLoop) : Round AuxLoop RdbState :=
  let (rdb, fp) := parseLengthEncoding st.rdb.nextState st.rdb.fp
  let st := { st with rdb := { st.rdb with fp := fp } }
  if rdb.lengthOrFormat = -1 then .exit st.rdb.incorrect
  else
    let st := auxiliaryFieldSettings
      (labelLenEncodingAndGetStr st rdb (calloc (sizeT (rdb.lengthOrFormat + 1))))
    if st.rdb.isRdbFileCorrect then lookAhead st else .exit st.rdb

/-! ## Progress -/

theorem length_fread_le (n : Nat) (fp : Bytes) : (fread n fp).2.length ≤ fp.length := by
  simp [fread]

theorem length_parseLengthEncoding_le (byte : UInt8) (fp : Bytes) :
    (parseLengthEncoding byte fp).2.length ≤ fp.length := by
  unfold parseLengthEncoding
  have h1 := length_fread_le 1 fp
  have h4 := length_fread_le 4 fp
  split
  · exact le_rfl
  · split <;> simp_all
  · split <;> simp_all
  · exact le_rfl

theorem length_getStr_le (string : Option Bytes) (size : Nat) (st : RdbState) :
    (getStr string size st).2.fp.length ≤ st.fp.length := by
  unfold getStr
  have h := length_fread_le size st.fp
  split
  · exact le_rfl
  · split
    · exact le_rfl
    · dsimp only
      split <;> exact h

theorem length_label_le (st : AuxLoop) (rdb : RdbLengthEncoding) (buf : Option Bytes) :
    (labelLenEncodingAndGetStr st rdb buf).rdb.fp.length ≤ st.rdb.fp.length := by
  unfold labelLenEncodingAndGetStr
  have h := length_getStr_le buf (sizeT rdb.lengthOrFormat) st.rdb
  split
  · dsimp only; split <;> exact h
  · dsimp only; split <;> exact h
  · dsimp only; split <;> exact h
  · exact le_rfl

theorem auxiliaryFieldSettings_fp (st : AuxLoop) :
    (auxiliaryFieldSettings st).rdb.fp = st.rdb.fp := by
  unfold auxiliaryFieldSettings
  split <;> rfl

theorem length_lookAhead_lt {st st' : AuxLoop} (h : lookAhead st = .again st') :
    st'.rdb.fp.length < st.rdb.fp.length := by
  unfold lookAhead at h
  cases hf : st.rdb.fp with
  | nil => simp [hf, fread] at h
  | cons byte fp =>
    simp only [hf, fread, List.take_succ_cons, List.take_zero, List.drop_succ_cons,
      List.drop_zero] at h
    split at h
    · cases h
    · cases h
      simp

/-- A round that goes on has read a byte at least. -/
theorem auxRound_lt (st st' : AuxLoop) (h : auxRound st = .again st') :
    st'.rdb.fp.length < st.rdb.fp.length := by
  unfold auxRound at h
  have hp := length_parseLengthEncoding_le st.rdb.nextState st.rdb.fp
  generalize parseLengthEncoding st.rdb.nextState st.rdb.fp = p at h hp
  obtain ⟨rdb, fp⟩ := p
  dsimp only at h hp
  split at h
  · cases h
  · split at h
    · have hl := length_lookAhead_lt h
      rw [auxiliaryFieldSettings_fp] at hl
      exact hl.trans_le ((length_label_le _ _ _).trans hp)
    · cases h

/-! ## The functions -/

/-- The loop of `parse_aux` starts with a key. -/
def AuxLoop.start (st : RdbState) : AuxLoop := ⟨st, .readingKey, (none, none)⟩

/-- `parse_aux`. -/
def parseAux (st : RdbState) : RdbState :=
  if RedisOpCode.aux.code ≠ st.prevState.toNat then st.incorrect
  else if isNextStateAnOpcode st.nextState then
    { st with isRdbFileCorrect := RedisOpCode.selectDb.code = st.nextState.toNat }
  else Loop.run (fun s => s.rdb.fp.length) auxRound auxRound_lt (.start st)

/-- `handle_aux_state`. -/
def handleAuxState (st : RdbState) : RdbState :=
  if (charToInt st.prevState).toInt ≠ 0x0F ∨
      (charToInt st.nextState).toInt ≠ RedisOpCode.aux.code then st.incorrect
  else
    match fread 1 st.fp with
    | ([byte], fp) => parseAux { st with prevState := st.nextState, nextState := byte, fp := fp }
    | (_, fp) =>
      { st with prevState := st.nextState, isRdbFileCorrect := false, fp := fp }

end RedisImpl
