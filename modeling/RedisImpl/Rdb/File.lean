import RedisImpl.Rdb.Section

/-!
# `redis_rdb_file_parser`

The header of a file, and the loop over the states behind it. Three bytes are not determined by the
file, and are a parameter (`Garbage`): `strcmp` reads one byte behind each of the two buffers of the
header, which are not terminated, and `next_state` is not initialised, which shows when the file ends
with the header.

All arms of the switch but `AUX` do nothing, so the loop stays in their states for ever.
-/

namespace RedisImpl

structure Garbage where
  behindMagic : UInt8
  behindVersion : UInt8
  nextState : UInt8

/-- `strcmp(data, s) == 0` for a buffer `data` of as many bytes as `s`, with the byte behind it. -/
def strcmpEq (data : Bytes) (behind : UInt8) (s : Bytes) : Bool := cstr (data ++ [behind]) = s

/-- `is_magic_header_correct`. -/
def isMagicHeaderCorrect (g : Garbage) (data : Bytes) (nrRdEl : Nat) : Bool :=
  if nrRdEl < 5 then false else strcmpEq data g.behindMagic (ascii "REDIS")

def availableVersions : List Bytes :=
  ["0001", "0002", "0003", "0004", "0005", "0006", "0007", "0008", "0009", "0010", "0011"].map ascii

/-- `is_version_number_correct`. -/
def isVersionNumberCorrect (g : Garbage) (data : Bytes) (nrRdEl : Nat) : Bool :=
  if nrRdEl < 4 then false else availableVersions.any fun v => strcmpEq data g.behindVersion v

/-- `parse_rdb_header`, and the rest of the file. -/
def parseRdbHeader (g : Garbage) (fp : Bytes) : Bool × Bytes :=
  let (buf, fp) := fread 5 fp
  if !isMagicHeaderCorrect g buf buf.length then (false, fp)
  else
    let (buf, fp) := fread 4 fp
    (isVersionNumberCorrect g buf buf.length, fp)

/-- The enumerator with the value of `byte`. -/
def RedisOpCode.ofByte (byte : UInt8) : Option RedisOpCode :=
  [aux, resizeDb, expireTimeMs, expireTime, selectDb, eof].find? fun op => op.code = byte.toNat

/-- A round of the loop over the states. -/
def stateRound (st : RdbState) : Round RdbState RdbState :=
  if !st.isRdbFileCorrect then .exit st
  else
    match RedisOpCode.ofByte st.nextState with
    | some .aux => .again (handleAuxState st)
    | some .resizeDb => .again st
    | some .expireTimeMs => .again st
    | some .expireTime => .again st
    | some .selectDb => .again st
    | some .eof => .again st
    | none => .again st

/-- `redis_rdb_file_parser` up to its loop, for the file that was opened: `none` where it returns. -/
def redisRdbFileParser (g : Garbage) (file : Option Bytes) : Option RdbState :=
  match file with
  | none => none
  | some fp =>
    match parseRdbHeader g fp with
    | (false, _) => none
    | (true, fp) =>
      let (nextState, fp) :=
        match fread 1 fp with
        | ([byte], fp) => (byte, fp)
        | (_, fp) => (g.nextState, fp)
      if nextState = 0 then none else some ⟨0x0F, nextState, true, fp, []⟩

/-! ## The header -/

/-- The file is a header and `rest`. -/
def HasHeader (g : Garbage) (fp rest : Bytes) : Prop :=
  g.behindMagic = 0 ∧ g.behindVersion = 0 ∧
    ∃ version ∈ availableVersions, fp = ascii "REDIS" ++ version ++ rest

/-- The buffer is equal to a string of its length only when a NUL lies behind it. -/
theorem strcmpEq_iff {data s : Bytes} {behind : UInt8} (hs : 0 ∉ s) (h : data.length = s.length) :
    strcmpEq data behind s = true ↔ data = s ∧ behind = 0 := by
  rw [strcmpEq, decide_eq_true_eq]
  constructor
  · intro he
    have hpre : s <+: data ++ [behind] := he ▸ List.takeWhile_prefix _
    obtain rfl : data = s :=
      (List.prefix_of_prefix_length_le (List.prefix_append data _) hpre h.le).eq_of_length h
    refine ⟨rfl, ?_⟩
    by_contra hb
    have hmem : ∀ c ∈ data ++ [behind], c ≠ 0 := by
      intro c hc
      rcases List.mem_append.mp hc with hc | hc
      · exact ne_of_mem_of_not_mem hc hs
      · exact List.mem_singleton.mp hc ▸ hb
    rw [cstr_eq_self fun h0 => hmem 0 h0 rfl] at he
    simp at he
  · rintro ⟨rfl, rfl⟩
    exact cstr_append_zero hs []

/-- The versions are numerals of four digits. -/
theorem availableVersions_spec {v : Bytes} (h : v ∈ availableVersions) : v.length = 4 ∧ 0 ∉ v := by
  revert v
  decide

theorem isMagicHeaderCorrect_iff {g : Garbage} {data : Bytes} (h : data.length ≤ 5) :
    isMagicHeaderCorrect g data data.length = true ↔ data = ascii "REDIS" ∧ g.behindMagic = 0 := by
  rw [isMagicHeaderCorrect]
  split
  · rename_i hlt
    refine iff_of_false Bool.false_ne_true ?_
    rintro ⟨rfl, -⟩
    exact absurd hlt (by decide)
  · exact strcmpEq_iff (by decide) (by rw [show (ascii "REDIS").length = 5 from rfl]; omega)

theorem isVersionNumberCorrect_iff {g : Garbage} {data : Bytes} (h : data.length ≤ 4) :
    isVersionNumberCorrect g data data.length = true ↔
      data ∈ availableVersions ∧ g.behindVersion = 0 := by
  rw [isVersionNumberCorrect]
  split
  · rename_i hlt
    refine iff_of_false Bool.false_ne_true ?_
    rintro ⟨hmem, -⟩
    have := (availableVersions_spec hmem).1
    omega
  · rw [List.any_eq_true]
    have hv (v : Bytes) (hmem : v ∈ availableVersions) :
        strcmpEq data g.behindVersion v = true ↔ data = v ∧ g.behindVersion = 0 := by
      obtain ⟨hlen, h0⟩ := availableVersions_spec hmem
      exact strcmpEq_iff h0 (by omega)
    constructor
    · rintro ⟨v, hmem, he⟩
      obtain ⟨rfl, h0⟩ := (hv v hmem).mp he
      exact ⟨hmem, h0⟩
    · rintro ⟨hmem, h0⟩
      exact ⟨data, hmem, (hv data hmem).mpr ⟨rfl, h0⟩⟩

/-- The header that is accepted. -/
theorem parseRdbHeader_iff {g : Garbage} {fp rest : Bytes} :
    parseRdbHeader g fp = (true, rest) ↔ HasHeader g fp rest := by
  have hm := isMagicHeaderCorrect_iff (g := g) (List.length_take_le 5 fp)
  have hv := isVersionNumberCorrect_iff (g := g) (List.length_take_le 4 (fp.drop 5))
  have hparse : parseRdbHeader g fp = (true, rest) ↔
      isMagicHeaderCorrect g (fp.take 5) (fp.take 5).length = true ∧
      isVersionNumberCorrect g ((fp.drop 5).take 4) ((fp.drop 5).take 4).length = true ∧
      (fp.drop 5).drop 4 = rest := by
    cases h : isMagicHeaderCorrect g (fp.take 5) (fp.take 5).length with
    | false => simp only [parseRdbHeader, fread, h]; simp
    | true => simp only [parseRdbHeader, fread, h]; simp
  rw [hparse, hm, hv]
  constructor
  · rintro ⟨⟨htake, hbm⟩, ⟨hmem, hbv⟩, hrest⟩
    refine ⟨hbm, hbv, _, hmem, ?_⟩
    rw [← htake, ← hrest, List.append_assoc, List.take_append_drop, List.take_append_drop]
  · rintro ⟨hbm, hbv, version, hmem, rfl⟩
    have hlen := (availableVersions_spec hmem).1
    have hmagic : (ascii "REDIS").length = 5 := rfl
    rw [List.append_assoc, List.take_left' hmagic, List.drop_left' hmagic, List.take_left' hlen,
      List.drop_left' hlen]
    exact ⟨⟨rfl, hbm⟩, ⟨hmem, hbv⟩, rfl⟩

/-! ## The loop -/

/-- A round of the loop reads a byte, clears the flag or ends the loop. -/
def Progresses (st : RdbState) : Prop :=
  ∀ st', stateRound st = .again st' →
    st'.fp.length < st.fp.length ∨ st'.isRdbFileCorrect = false

/-- The parser ends on the file, and every round of its loop makes progress. -/
def ParserTerminates (g : Garbage) (file : Option Bytes) : Prop :=
  ∀ st, redisRdbFileParser g file = some st →
    (∃ s, Loop.Ends stateRound st s) ∧ ∀ s, Loop.Reaches stateRound st s → Progresses s

theorem ofByte_aux {byte : UInt8} : RedisOpCode.ofByte byte = some .aux ↔ byte = 0xFA := by
  constructor
  · intro h
    rw [RedisOpCode.ofByte] at h
    have hcode := List.find?_some h
    rw [decide_eq_true_eq] at hcode
    rw [RedisOpCode.code] at hcode
    refine UInt8.toNat_inj.mp ?_
    rw [show UInt8.toNat 0xFA = 250 from rfl]
    omega
  · rintro rfl
    rfl

/-- With the flag set, a round in the state `AUX` clears it. -/
theorem stateRound_aux {st : RdbState} (hc : st.isRdbFileCorrect = true)
    (h : st.nextState = 0xFA) : stateRound st = .again st.incorrect := by
  simp only [stateRound, hc, ofByte_aux.mpr h, handleAuxState_eq]
  rfl

/-- With the flag set, a round in another state does nothing. -/
theorem stateRound_other {st : RdbState} (hc : st.isRdbFileCorrect = true)
    (h : st.nextState ≠ 0xFA) : stateRound st = .again st := by
  have hne := mt ofByte_aux.mp h
  simp only [stateRound, hc]
  split
  · rename_i hf
    cases hf
  · split
    · rename_i ha
      exact absurd ha hne
    all_goals rfl

theorem stateRound_incorrect {st : RdbState} (hc : st.isRdbFileCorrect = false) :
    stateRound st = .exit st := by
  simp [stateRound, hc]

/-- A round that goes on from the state `AUX`, or from a cleared flag, clears the flag. -/
theorem flag_of_again {st st' : RdbState} (h : st.isRdbFileCorrect = false ∨ st.nextState = 0xFA)
    (hround : stateRound st = .again st') : st'.isRdbFileCorrect = false := by
  cases hc : st.isRdbFileCorrect with
  | false =>
    rw [stateRound_incorrect hc] at hround
    cases hround
  | true =>
    rw [stateRound_aux hc (h.resolve_left (by simp [hc]))] at hround
    cases hround
    rfl

/-- Where the parser comes to its loop. -/
theorem redisRdbFileParser_eq_some {g : Garbage} {file : Option Bytes} {st : RdbState} :
    redisRdbFileParser g file = some st ↔ ∃ fp rest, file = some fp ∧ HasHeader g fp rest ∧
      rest.headD g.nextState ≠ 0 ∧ st = ⟨0x0F, rest.headD g.nextState, true, rest.tail, []⟩ := by
  cases file with
  | none => simp [redisRdbFileParser]
  | some fp =>
    simp only [← parseRdbHeader_iff, Option.some.injEq]
    cases hp : parseRdbHeader g fp with
    | mk ok rest =>
      cases ok with
      | false => simp [redisRdbFileParser, hp]
      | true =>
        have hloop : redisRdbFileParser g (some fp) =
            if rest.headD g.nextState = 0 then none
            else some ⟨0x0F, rest.headD g.nextState, true, rest.tail, []⟩ := by
          cases rest <;> simp [redisRdbFileParser, hp, fread]
        rw [hloop]
        constructor
        · intro h
          split at h
          · cases h
          · rename_i hne
            exact ⟨fp, rest, rfl, hp, hne, (Option.some.inj h).symm⟩
        · rintro ⟨fp', rest', rfl, hp', hne, rfl⟩
          obtain rfl : rest = rest' := by
            rw [hp] at hp'
            exact (Prod.mk.inj hp').2
          rw [if_neg hne]

/-- Behind a header that is accepted, the parser ends exactly when the byte there is 0 (it returns)
or `AUX` (it clears the flag). -/
theorem parserTerminates_iff (g : Garbage) (file : Option Bytes) :
    ParserTerminates g file ↔ ∀ fp rest, file = some fp → HasHeader g fp rest →
      rest.headD g.nextState = 0 ∨ rest.headD g.nextState = 0xFA := by
  constructor
  · intro h fp rest hfile hheader
    by_contra hne
    rw [not_or] at hne
    obtain ⟨⟨s, hs⟩, -⟩ := h _ (redisRdbFileParser_eq_some.mpr ⟨fp, rest, hfile, hheader, hne.1, rfl⟩)
    refine Loop.not_ends (fun st => st.isRdbFileCorrect = true ∧ st.nextState ≠ 0xFA) ?_
      ⟨rfl, hne.2⟩ s hs
    exact fun st hst => ⟨st, stateRound_other hst.1 hst.2, hst⟩
  · intro h st hst
    obtain ⟨fp, rest, hfile, hheader, hne, rfl⟩ := redisRdbFileParser_eq_some.mp hst
    have haux := (h fp rest hfile hheader).resolve_left hne
    refine ⟨⟨_, .again (stateRound_aux rfl haux) (.exit (stateRound_incorrect rfl))⟩, ?_⟩
    intro s hs t ht
    have hinv : s.isRdbFileCorrect = false ∨ s.nextState = 0xFA :=
      hs.rule (fun s => s.isRdbFileCorrect = false ∨ s.nextState = 0xFA)
        (fun _ _ hu hround => .inl (flag_of_again hu hround)) (.inr haux)
    exact .inr (flag_of_again hinv ht)

/-- A file that goes on with `SELECTDB` behind its header. -/
theorem selectDb_not_terminates :
    ¬ ParserTerminates ⟨0, 0, 0⟩ (some (ascii "REDIS0011" ++ [0xFE])) := by
  intro h
  have hstart : redisRdbFileParser ⟨0, 0, 0⟩ (some (ascii "REDIS0011" ++ [0xFE])) =
      some ⟨0x0F, 0xFE, true, [], []⟩ := by
    decide
  obtain ⟨⟨s, hs⟩, -⟩ := h _ hstart
  refine Loop.not_ends (fun st => st = ⟨0x0F, 0xFE, true, [], []⟩) ?_ rfl s hs
  rintro st rfl
  exact ⟨_, stateRound_other rfl (by decide), rfl⟩

end RedisImpl
