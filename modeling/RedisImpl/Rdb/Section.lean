import RedisImpl.Rdb.AuxFields

/-!
# What `parse_aux` takes

The bytes that `parse_aux` reads, as a sequence of items: a length and, when it is not negative, that
many bytes. `parseAux_items`: a sequence of items with an opcode behind it is taken, and the calls of
`auxiliary_field_settings` are those of its pairs. `accepted_iff`: nothing else is taken.

`Declares` is the length that bytes declare, by their form and not by the decoder of the code, and
`CompletePairs` an even number of strings with such lengths. `completePairs_iff`: what is taken is
complete pairs, unless a key has no value or a length is misread.

An item whose length is negative (but not -1) is no string: the buffer that the code asks for is
larger than any object, `calloc` gives NULL, and `get_str` returns without reading.
-/

namespace RedisImpl

/-- `more` are the bytes of a length after its first byte. -/
def LengthForm (byte : UInt8) (more : Bytes) : Prop :=
  byte.toNat / 64 = 0 ∧ more.length = 0 ∨ byte.toNat / 64 = 1 ∧ more.length = 1 ∨
    byte.toNat / 64 = 2 ∧ more.length = 4

section Lengths

variable {byte : UInt8} {more : Bytes}

/-- The length does not depend on what follows it. -/
theorem LengthForm.parse (h : LengthForm byte more) (rest : Bytes) :
    ∃ enc, enc ≠ .redisSpecialFormat ∧
      parseLengthEncoding byte (more ++ rest) = (⟨enc, lengthOf byte more⟩, rest) := by
  rcases h with ⟨h, hl⟩ | ⟨h, hl⟩ | ⟨h, hl⟩
  · obtain rfl := List.length_eq_zero_iff.mp hl
    refine ⟨.redisRdb6BitLen, by decide, ?_⟩
    rw [lengthOf, parse_sixBit _ h, List.nil_append, parse_sixBit _ h]
  · obtain ⟨extra, rfl⟩ := List.length_eq_one_iff.mp hl
    refine ⟨.redisRdb14BitLen, by decide, ?_⟩
    rw [lengthOf, parse_fourteenBit _ _ h, List.singleton_append, parse_fourteenBit _ _ h]
  · obtain ⟨l0, l1, l2, l3, tail, rfl⟩ := eq_cons_of_four_le hl.ge
    obtain rfl := List.length_eq_zero_iff.mp (by simpa using hl)
    refine ⟨.redisRdb32BitLen, by decide, ?_⟩
    rw [lengthOf_thirtyTwoBit _ _ _ _ h]
    exact parse_thirtyTwoBit rest l0 l1 l2 l3 h

/-- Unless it is cut or special, a length is followed by its other bytes. -/
theorem exists_lengthForm {fp : Bytes} (h3 : byte.toNat / 64 ≠ 3) (hcut : ¬ CutLength byte fp) :
    ∃ more rest, fp = more ++ rest ∧ LengthForm byte more := by
  have hb := byte.toNat_lt
  obtain h | h | h : byte.toNat / 64 = 0 ∨ byte.toNat / 64 = 1 ∨ byte.toNat / 64 = 2 := by omega
  · exact ⟨[], fp, rfl, .inl ⟨h, rfl⟩⟩
  · cases fp with
    | nil => exact absurd (.inl ⟨h, rfl⟩) hcut
    | cons extra rest => exact ⟨[extra], rest, rfl, .inr (.inl ⟨h, rfl⟩)⟩
  · have hlen : 4 ≤ fp.length := by
      by_contra hlt
      exact hcut (.inr ⟨h, by omega⟩)
    obtain ⟨l0, l1, l2, l3, rest, rfl⟩ := eq_cons_of_four_le hlen
    exact ⟨[l0, l1, l2, l3], rest, rfl, .inr (.inr ⟨h, rfl⟩)⟩

theorem lengthOf_bounds (h : LengthForm byte more) :
    -2 ^ 31 ≤ lengthOf byte more ∧ lengthOf byte more < 2 ^ 31 := by
  rcases h with ⟨h, -⟩ | ⟨h, hl⟩ | ⟨h, hl⟩
  · rw [lengthOf_sixBit h]
    omega
  · obtain ⟨extra, rfl⟩ := List.length_eq_one_iff.mp hl
    have := extra.toNat_lt
    rw [lengthOf_fourteenBit _ h]
    omega
  · obtain ⟨l0, l1, l2, l3, tail, rfl⟩ := eq_cons_of_four_le hl.ge
    rw [lengthOf_thirtyTwoBit _ _ _ _ h]
    exact ⟨BitVec.le_toInt _, BitVec.toInt_lt⟩

end Lengths

/-- What one round of the loop reads: a length, and as many bytes as the decoder makes of it. -/
structure AuxItem where
  byte : UInt8
  more : Bytes
  payload : Bytes
  form : LengthForm byte more
  decoded_ne : lengthOf byte more ≠ -1
  payload_length : payload.length = (lengthOf byte more).toNat

namespace AuxItem

/-- The length that the decoder makes of the bytes. -/
def decoded (i : AuxItem) : Int := lengthOf i.byte i.more

def bytes (i : AuxItem) : Bytes := i.byte :: (i.more ++ i.payload)

/-- The buffer that is filled with the string. -/
def buffer (i : AuxItem) : Option Bytes := if 0 ≤ i.decoded then some (i.payload ++ [0]) else none

theorem length_payload (i : AuxItem) : i.payload.length = i.decoded.toNat := i.payload_length

theorem decoded_bounds (i : AuxItem) :
    -2 ^ 31 ≤ i.decoded ∧ i.decoded ≠ -1 ∧ i.decoded < 2 ^ 31 :=
  ⟨(lengthOf_bounds i.form).1, i.decoded_ne, (lengthOf_bounds i.form).2⟩

/-- The bytes of an item determine it, whatever follows. -/
theorem bytes_inj {i j : AuxItem} {r s : Bytes} (h : i.bytes ++ r = j.bytes ++ s) :
    i = j ∧ r = s := by
  obtain ⟨b, m, p, hf, hn, hp⟩ := i
  obtain ⟨b', m', p', hf', hn', hp'⟩ := j
  simp only [bytes, List.cons_append, List.append_assoc, List.cons.injEq] at h
  obtain ⟨rfl, h⟩ := h
  have hm : m.length = m'.length := by
    rcases hf with hf | hf | hf <;> rcases hf' with hf' | hf' | hf' <;> omega
  obtain ⟨rfl, h'⟩ := List.append_inj h hm
  obtain ⟨rfl, rfl⟩ := List.append_inj h' (hp.trans hp'.symm)
  exact ⟨rfl, rfl⟩

/-- The first byte of an item is no opcode. -/
theorem not_opcode (i : AuxItem) : i.byte.toNat < 192 := by
  have := i.form
  simp only [LengthForm] at this
  omega

end AuxItem

theorem isNextStateAnOpcode_iff {byte : UInt8} :
    isNextStateAnOpcode byte = true ↔ 250 ≤ byte.toNat := by
  have hb := byte.toNat_lt
  simp only [isNextStateAnOpcode, List.any_cons, List.any_nil, Bool.or_false, Bool.or_eq_true,
    decide_eq_true_eq]
  simp only [RedisOpCode.code]
  omega

/-! ## One round -/

namespace AuxLoop

/-- The loop after the string of an item. -/
def take (st : AuxLoop) (i : AuxItem) (rest : Bytes) : AuxLoop :=
  auxiliaryFieldSettings
    (if st.nextReadingState = .readingKey then
      ⟨{ st.rdb with fp := rest }, .readingValue, (i.buffer, st.kvpArr.2)⟩
    else ⟨{ st.rdb with fp := rest }, .readingKey, (st.kvpArr.1, i.buffer)⟩)

/-- The key that waits for its value. -/
def pending (st : AuxLoop) : List (Option Bytes) :=
  match st.nextReadingState with
  | .readingKey => []
  | .readingValue => [st.kvpArr.1]

end AuxLoop

/-- The calls that are made for strings that are alternately a key and a value. -/
def settingsOf : List (Option Bytes) → List (Option Bytes × Option Bytes)
  | key :: value :: strings => (key, value) :: settingsOf strings
  | _ => []

theorem settingsOf_pending (st : AuxLoop) : settingsOf (st.pending ++ []) = [] := by
  rw [List.append_nil, AuxLoop.pending]
  split <;> rfl

section Round

variable {st : AuxLoop} {rest : Bytes}

/-- A string that is there is read into its buffer, and terminated. -/
theorem getStr_present {s : RdbState} {payload : Bytes} (h : s.fp = payload ++ rest) :
    getStr (some (List.replicate (payload.length + 1) 0)) payload.length s =
      (some (payload ++ [0]), { s with fp := rest }) := by
  cases payload with
  | nil =>
    obtain rfl : s.fp = rest := h
    rfl
  | cons c cs => simp [getStr, fread, h]

/-- A string that is cut clears the flag. -/
theorem getStr_cut {s : RdbState} {n : Nat} {buf : Bytes} (h : s.fp.length < n) :
    (getStr (some buf) n s).2.isRdbFileCorrect = false := by
  have hn : n ≠ 0 := by omega
  simp [getStr, fread, hn, h]

/-- What a round does with a string, whichever form its length has. -/
theorem label_eq {enc : RdbLenEncodingType} (h : enc ≠ .redisSpecialFormat) (n : Int)
    (buf : Option Bytes) :
    labelLenEncodingAndGetStr st ⟨enc, n⟩ buf =
      if st.nextReadingState = .readingKey then
        ⟨(getStr buf (sizeT n) st.rdb).2, .readingValue,
          ((getStr buf (sizeT n) st.rdb).1, st.kvpArr.2)⟩
      else
        ⟨(getStr buf (sizeT n) st.rdb).2, .readingKey,
          (st.kvpArr.1, (getStr buf (sizeT n) st.rdb).1)⟩ := by
  cases enc with
  | redisSpecialFormat => exact absurd rfl h
  | _ => rfl

/-- The string of an item is read into its buffer. -/
theorem AuxItem.getStr_eq (i : AuxItem) {s : RdbState} (h : s.fp = i.payload ++ rest) :
    getStr (calloc (sizeT (i.decoded + 1))) (sizeT i.decoded) s =
      (i.buffer, { s with fp := rest }) := by
  obtain ⟨hlo, hne, hhi⟩ := i.decoded_bounds
  have hlen := i.length_payload
  by_cases h0 : 0 ≤ i.decoded
  · rw [calloc_of_nonneg h0 hhi, sizeT_of_nonneg h0 (by omega), ← hlen, getStr_present h, buffer,
      if_pos h0]
  · have hnil : i.payload = [] := List.length_eq_zero_iff.mp (by omega)
    obtain rfl : s.fp = rest := by rw [h, hnil, List.nil_append]
    rw [calloc_of_neg (by omega) hlo, buffer, if_neg h0]
    rfl

/-- A round that comes to an item takes it. -/
theorem auxRound_item {i : AuxItem} (hc : st.rdb.isRdbFileCorrect = true)
    (hb : st.rdb.nextState = i.byte) (hf : st.rdb.fp = i.more ++ i.payload ++ rest) :
    auxRound st = lookAhead (st.take i rest) := by
  obtain ⟨enc, henc, hp⟩ := i.form.parse (i.payload ++ rest)
  obtain ⟨⟨prev, next, correct, fp, settings⟩, state, kvp⟩ := st
  simp only at hc hb hf
  subst hc hb hf
  simp only [auxRound, List.append_assoc, hp, if_neg i.decoded_ne, label_eq henc]
  rw [← AuxItem.decoded, i.getStr_eq rfl]
  cases state <;> rfl

/-- A string for which the flag is cleared ends the loop. -/
theorem auxRound_exit {rdb : RdbLengthEncoding} {fp : Bytes}
    (hp : parseLengthEncoding st.rdb.nextState st.rdb.fp = (rdb, fp))
    (hbad : rdb.lengthOrFormat ≠ -1 →
      (labelLenEncodingAndGetStr { st with rdb := { st.rdb with fp := fp } } rdb
        (calloc (sizeT (rdb.lengthOrFormat + 1)))).rdb.isRdbFileCorrect = false) :
    ∃ s, auxRound st = .exit s ∧ s.isRdbFileCorrect = false := by
  simp only [auxRound, hp]
  split
  · exact ⟨_, rfl, rfl⟩
  · rename_i hne
    have h := hbad hne
    rw [auxiliaryFieldSettings, if_neg (by simp [h]), if_neg (by simp [h])]
    exact ⟨_, rfl, h⟩

/-- A round comes to an item, or ends the loop with the flag cleared. -/
theorem auxRound_cases (st : AuxLoop) :
    (∃ (i : AuxItem) (rest : Bytes),
      st.rdb.nextState = i.byte ∧ st.rdb.fp = i.more ++ i.payload ++ rest) ∨
    ∃ s, auxRound st = .exit s ∧ s.isRdbFileCorrect = false := by
  by_cases h3 : st.rdb.nextState.toNat / 64 = 3
  · exact .inr (auxRound_exit (parse_special _ h3) fun _ => rfl)
  by_cases hneg : lengthOf st.rdb.nextState st.rdb.fp = -1
  · exact .inr (auxRound_exit rfl fun hne => absurd hneg hne)
  obtain ⟨more, rest, hfp, hform⟩ := exists_lengthForm h3 (fun hcut => hneg (lengthOf_cut hcut))
  obtain ⟨enc, henc, hp⟩ := hform.parse rest
  have hlen : lengthOf st.rdb.nextState st.rdb.fp = lengthOf st.rdb.nextState more := by
    rw [lengthOf, hfp, hp]
  rw [hlen] at hneg
  obtain ⟨hlo, hhi⟩ := lengthOf_bounds hform
  by_cases hle : (lengthOf st.rdb.nextState more).toNat ≤ rest.length
  · refine .inl ⟨⟨st.rdb.nextState, more, rest.take (lengthOf st.rdb.nextState more).toNat, hform,
      hneg, List.length_take_of_le hle⟩, rest.drop (lengthOf st.rdb.nextState more).toNat, rfl, ?_⟩
    rw [List.append_assoc, List.take_append_drop, hfp]
  · -- the file ends within the string
    right
    apply auxRound_exit (hfp ▸ hp)
    intro _
    have hcut (s : RdbState) (hs : s.fp = rest) :
        (getStr (calloc (sizeT (lengthOf st.rdb.nextState more + 1)))
          (sizeT (lengthOf st.rdb.nextState more)) s).2.isRdbFileCorrect = false := by
      rw [calloc_of_nonneg (by omega) hhi, sizeT_of_nonneg (by omega) (by omega)]
      exact getStr_cut (by rw [hs]; omega)
    rw [label_eq henc]
    split <;> exact hcut _ rfl

theorem lookAhead_nil {st : AuxLoop} (h : st.rdb.fp = []) :
    ∃ s, lookAhead st = .exit s ∧ s.isRdbFileCorrect = false := by
  simp [lookAhead, fread, h]

theorem lookAhead_opcode {st : AuxLoop} {op : UInt8} {rest : Bytes} (h : st.rdb.fp = op :: rest)
    (hop : isNextStateAnOpcode op = true) :
    lookAhead st = .exit { st.rdb with nextState := op, fp := rest } := by
  simp [lookAhead, fread, h, hop]

theorem lookAhead_again {st : AuxLoop} {byte : UInt8} {rest : Bytes}
    (h : st.rdb.fp = byte :: rest) (hop : isNextStateAnOpcode byte = false) :
    lookAhead st = .again { st with rdb := { st.rdb with nextState := byte, fp := rest } } := by
  simp [lookAhead, fread, h, hop]

/-- What an item does to the state of the parser, with the calls that are made for it and for the
strings behind it. -/
theorem take_spec (i : AuxItem) (rest : Bytes) (strings : List (Option Bytes))
    (hc : st.rdb.isRdbFileCorrect = true) :
    ∃ settings, (st.take i rest).rdb = { st.rdb with fp := rest, settings := settings } ∧
      settings ++ settingsOf ((st.take i rest).pending ++ strings) =
        st.rdb.settings ++ settingsOf (st.pending ++ i.buffer :: strings) := by
  obtain ⟨rdb, state, kvp⟩ := st
  cases state with
  | readingKey => exact ⟨rdb.settings, rfl, rfl⟩
  | readingValue =>
    refine ⟨rdb.settings ++ [(kvp.1, i.buffer)], ?_, ?_⟩
    · simp only at hc
      simp [AuxLoop.take, auxiliaryFieldSettings, hc]
    · simp only at hc
      simp [AuxLoop.take, auxiliaryFieldSettings, AuxLoop.pending, settingsOf, hc]

end Round

/-! ## The loop -/

/-- The bytes of a sequence of items. -/
def itemBytes (items : List AuxItem) : Bytes := items.flatMap AuxItem.bytes

theorem itemBytes_cons (i : AuxItem) (items : List AuxItem) :
    itemBytes (i :: items) = i.bytes ++ itemBytes items := List.flatMap_cons

theorem itemBytes_concat (items : List AuxItem) (i : AuxItem) (tail : Bytes) :
    itemBytes (items ++ [i]) ++ tail = itemBytes items ++ (i.bytes ++ tail) := by
  simp [itemBytes]

theorem eq_of_itemBytes_cons {byte : UInt8} {fp tail : Bytes} {i : AuxItem} {items : List AuxItem}
    (h : byte :: fp = itemBytes (i :: items) ++ tail) :
    byte = i.byte ∧ fp = i.more ++ i.payload ++ (itemBytes items ++ tail) := by
  rw [itemBytes_cons, AuxItem.bytes, List.append_assoc, List.cons_append, List.cons.injEq] at h
  exact h

/-- The state of the parser after items with an opcode behind them. -/
def RdbState.after (st : RdbState) (op : UInt8) (rest : Bytes) (strings : List (Option Bytes)) :
    RdbState :=
  { st with nextState := op, fp := rest, settings := st.settings ++ settingsOf strings }

/-- The loop takes items, one in each round. The induction is on the items. -/
theorem ends_items {i : AuxItem} {items : List AuxItem} {op : UInt8} {rest : Bytes} {st : AuxLoop}
    (hop : isNextStateAnOpcode op = true) (hc : st.rdb.isRdbFileCorrect = true)
    (h : st.rdb.nextState :: st.rdb.fp = itemBytes (i :: items) ++ op :: rest) :
    Loop.Ends auxRound st
      (st.rdb.after op rest (st.pending ++ (i :: items).map AuxItem.buffer)) := by
  induction items generalizing i st with
  | nil =>
    obtain ⟨hb, hf⟩ := eq_of_itemBytes_cons h
    obtain ⟨settings, ht, hs⟩ := take_spec i (itemBytes [] ++ op :: rest) [] hc
    apply Loop.Ends.exit
    rw [auxRound_item hc hb hf, lookAhead_opcode (by rw [ht]; rfl) hop, ht,
      RdbState.after, List.map_cons, List.map_nil, ← hs, settingsOf_pending, List.append_nil]
  | cons j items ih =>
    obtain ⟨hb, hf⟩ := eq_of_itemBytes_cons h
    obtain ⟨settings, ht, hs⟩ := take_spec i (itemBytes (j :: items) ++ op :: rest)
      ((j :: items).map AuxItem.buffer) hc
    have hj : isNextStateAnOpcode j.byte = false := by
      have := j.not_opcode
      rw [← Bool.not_eq_true, isNextStateAnOpcode_iff]
      omega
    have hfp : (st.take i (itemBytes (j :: items) ++ op :: rest)).rdb.fp =
        j.byte :: (j.more ++ j.payload ++ (itemBytes items ++ op :: rest)) := by
      rw [ht, itemBytes_cons, AuxItem.bytes, List.append_assoc, List.cons_append]
    refine Loop.Ends.again ((auxRound_item hc hb hf).trans (lookAhead_again hfp hj)) ?_
    rw [RdbState.after, List.map_cons, ← hs]
    rw [ht]
    refine ih hc ?_
    rw [itemBytes_cons, AuxItem.bytes, List.append_assoc]
    rfl

/-- What a round can do: it ends the loop with the flag cleared, or it takes an item and looks at the
byte behind it. -/
theorem auxRound_inv {st : AuxLoop} (hc : st.rdb.isRdbFileCorrect = true) :
    (∃ s, auxRound st = .exit s ∧ s.isRdbFileCorrect = false) ∨
    ∃ (i : AuxItem) (s : RdbState), s.isRdbFileCorrect = true ∧
      st.rdb.nextState :: st.rdb.fp = i.bytes ++ s.nextState :: s.fp ∧
      (isNextStateAnOpcode s.nextState = true ∧ auxRound st = .exit s ∨
        ∃ st', st'.rdb = s ∧ auxRound st = .again st') := by
  obtain ⟨i, rest, hb, hf⟩ | hexit := auxRound_cases st
  · obtain ⟨settings, ht, -⟩ := take_spec i rest [] hc
    rw [auxRound_item hc hb hf]
    cases rest with
    | nil => exact .inl (lookAhead_nil (by rw [ht]))
    | cons byte rest =>
      have hfp : (st.take i (byte :: rest)).rdb.fp = byte :: rest := by rw [ht]
      refine .inr ⟨i, { (st.take i (byte :: rest)).rdb with nextState := byte, fp := rest },
        by rw [ht]; exact hc, by rw [hb, hf, AuxItem.bytes]; rfl, ?_⟩
      by_cases hop : isNextStateAnOpcode byte = true
      · exact .inl ⟨hop, lookAhead_opcode hfp hop⟩
      · exact .inr ⟨_, rfl, lookAhead_again hfp (by simpa using hop)⟩
  · exact .inl hexit

/-- A loop that ends with the flag set has come over items to an opcode. -/
theorem items_of_ends {st : AuxLoop} {s : RdbState} (hc : st.rdb.isRdbFileCorrect = true)
    (h : Loop.Ends auxRound st s) (hs : s.isRdbFileCorrect = true) :
    isNextStateAnOpcode s.nextState = true ∧ ∃ items,
      st.rdb.nextState :: st.rdb.fp = itemBytes items ++ s.nextState :: s.fp := by
  refine h.rule
    (fun t => t.rdb.isRdbFileCorrect = true ∧ ∃ items,
      st.rdb.nextState :: st.rdb.fp = itemBytes items ++ t.rdb.nextState :: t.rdb.fp)
    (fun s => s.isRdbFileCorrect = true → isNextStateAnOpcode s.nextState = true ∧ ∃ items,
      st.rdb.nextState :: st.rdb.fp = itemBytes items ++ s.nextState :: s.fp) ?_ ?_
    ⟨hc, [], rfl⟩ hs
  · rintro t t' ⟨htc, items, ht⟩ hb
    obtain ⟨r, hr, -⟩ | ⟨i, r, hrc, hi, ⟨-, hr⟩ | ⟨u, rfl, hr⟩⟩ := auxRound_inv htc
    · rw [hb] at hr
      cases hr
    · rw [hb] at hr
      cases hr
    · rw [hb] at hr
      cases hr
      exact ⟨hrc, items ++ [i], by rw [ht, hi, itemBytes_concat]⟩
  · rintro t r ⟨htc, items, ht⟩ hb hrc
    obtain ⟨u, hu, huc⟩ | ⟨i, u, -, hi, ⟨hop, hu⟩ | ⟨v, -, hv⟩⟩ := auxRound_inv htc
    · rw [hb] at hu
      cases hu
      rw [hrc] at huc
      cases huc
    · rw [hb] at hu
      cases hu
      exact ⟨hop, items ++ [i], by rw [ht, hi, itemBytes_concat]⟩
    · rw [hb] at hv
      cases hv

/-! ## `parse_aux` -/

/-- Items with an opcode behind them are determined by their bytes. -/
theorem items_unique {items items' : List AuxItem} {op op' : UInt8} {rest rest' : Bytes}
    (hop : isNextStateAnOpcode op = true) (hop' : isNextStateAnOpcode op' = true)
    (h : itemBytes items ++ op :: rest = itemBytes items' ++ op' :: rest') : items = items' := by
  rw [isNextStateAnOpcode_iff] at hop hop'
  induction items generalizing items' with
  | nil =>
    cases items' with
    | nil => rfl
    | cons j items' =>
      have hb := (eq_of_itemBytes_cons h).1
      have := j.not_opcode
      rw [hb] at hop
      omega
  | cons i items ih =>
    cases items' with
    | nil =>
      have hb := (eq_of_itemBytes_cons h.symm).1
      have := i.not_opcode
      rw [hb] at hop'
      omega
    | cons j items' =>
      rw [itemBytes_cons, itemBytes_cons, List.append_assoc, List.append_assoc] at h
      obtain ⟨rfl, htail⟩ := AuxItem.bytes_inj h
      rw [ih htail]

section ParseAux

variable {st : RdbState} (hprev : st.prevState = 0xFA)
  (hnext : isNextStateAnOpcode st.nextState = false) (hc : st.isRdbFileCorrect = true)

include hprev hnext

theorem parseAux_eq_run :
    parseAux st = Loop.run (fun s => s.rdb.fp.length) auxRound auxRound_lt (.start st) := by
  rw [parseAux, if_neg (by rw [hprev]; decide), if_neg (by rw [hnext]; decide)]

/-- The loop of `parse_aux` ends, with the result of the function. -/
theorem ends_parseAux : Loop.Ends auxRound (.start st) (parseAux st) := by
  rw [parseAux_eq_run hprev hnext]
  exact Loop.ends_run _ auxRound_lt _

include hc

/-- Items with an opcode behind them are taken. -/
theorem parseAux_items {items : List AuxItem} {op : UInt8} {rest : Bytes}
    (hop : isNextStateAnOpcode op = true)
    (h : st.nextState :: st.fp = itemBytes items ++ op :: rest) :
    parseAux st = st.after op rest (items.map AuxItem.buffer) := by
  cases items with
  | nil =>
    rw [itemBytes, List.flatMap_nil, List.nil_append, List.cons.injEq] at h
    rw [h.1, hop] at hnext
    cases hnext
  | cons i items =>
    exact (ends_parseAux hprev hnext).unique (ends_items hop hc h)

/-- `parse_aux` leaves the flag set exactly when it came over items to an opcode. -/
theorem accepted_iff :
    (parseAux st).isRdbFileCorrect = true ↔ ∃ items op rest,
      isNextStateAnOpcode op = true ∧ st.nextState :: st.fp = itemBytes items ++ op :: rest := by
  constructor
  · intro h
    obtain ⟨hop, items, hi⟩ := items_of_ends hc (ends_parseAux hprev hnext) h
    exact ⟨items, _, _, hop, hi⟩
  · rintro ⟨items, op, rest, hop, h⟩
    rw [parseAux_items hprev hnext hc hop h]
    exact hc

end ParseAux

/-! ## Complete pairs -/

/-- `byte` and `more` declare the length `n`: in six bits; in the 14 bits of the two-byte form, with
the second byte above the others; in the four bytes of the five-byte form, which are below `0x80`, as
a `char` is signed. No other bytes declare a length that can be read. -/
inductive Declares : UInt8 → Bytes → Nat → Prop
  | sixBit {byte : UInt8} : byte.toNat / 64 = 0 → Declares byte [] byte.toNat
  | fourteenBit {byte extra : UInt8} : byte.toNat / 64 = 1 → extra.toNat < 64 →
      Declares byte [extra] (extra.toNat * 256 + byte.toNat % 64)
  | thirtyTwoBit {byte l0 l1 l2 l3 : UInt8} : byte.toNat / 64 = 2 → l0.toNat < 128 →
      l1.toNat < 128 → l2.toNat < 128 → l3.toNat < 128 →
      Declares byte [l0, l1, l2, l3] (littleEndian l0 l1 l2 l3)

/-- A length, and a string of this length. -/
def LengthPrefixed (bytes : Bytes) : Prop :=
  ∃ byte more payload, bytes = byte :: (more ++ payload) ∧ Declares byte more payload.length

/-- The bytes are an even number of strings, each there with its length, and an opcode. -/
def CompletePairs (bytes : Bytes) : Prop :=
  ∃ (strings : List Bytes) (op : UInt8) (rest : Bytes),
    isNextStateAnOpcode op = true ∧ bytes = strings.flatten ++ op :: rest ∧
    strings.length % 2 = 0 ∧ ∀ s ∈ strings, LengthPrefixed s

/-- The bytes of the length are not below 64 in the two-byte form, or not below 128 in the five-byte
form. -/
def AuxItem.Misread (i : AuxItem) : Prop :=
  i.byte.toNat / 64 = 1 ∧ (∃ c ∈ i.more, 64 ≤ c.toNat) ∨
    i.byte.toNat / 64 = 2 ∧ ∃ c ∈ i.more, 128 ≤ c.toNat

/-- The bytes are items and an opcode, with a key that has no value or a length that is misread. -/
def BrokenPairs (bytes : Bytes) : Prop :=
  ∃ items op rest, isNextStateAnOpcode op = true ∧ bytes = itemBytes items ++ op :: rest ∧
    (items.length % 2 = 1 ∨ ∃ i ∈ items, AuxItem.Misread i)

section Declares

variable {byte : UInt8} {more : Bytes} {n : Nat}

theorem Declares.form (h : Declares byte more n) : LengthForm byte more := by
  cases h with
  | sixBit h => exact .inl ⟨h, rfl⟩
  | fourteenBit h => exact .inr (.inl ⟨h, rfl⟩)
  | thirtyTwoBit h => exact .inr (.inr ⟨h, rfl⟩)

/-- A length that is declared is the one that the code reads. -/
theorem Declares.lengthOf_eq (h : Declares byte more n) : lengthOf byte more = n := by
  cases h with
  | sixBit h => exact lengthOf_sixBit h
  | fourteenBit h =>
    rw [lengthOf_fourteenBit _ h]
    omega
  | thirtyTwoBit h h0 h1 h2 h3 => rw [lengthOf_thirtyTwoBit _ _ _ _ h, toInt_assemble h0 h1 h2 h3]

theorem Declares.bytes_lt (h : Declares byte more n) :
    (byte.toNat / 64 = 1 → ∀ c ∈ more, c.toNat < 64) ∧
      (byte.toNat / 64 = 2 → ∀ c ∈ more, c.toNat < 128) := by
  cases h with
  | sixBit h => exact ⟨nofun, nofun⟩
  | fourteenBit h hlt =>
    refine ⟨fun _ c hc => ?_, fun h2 => by omega⟩
    obtain rfl := List.mem_singleton.mp hc
    exact hlt
  | thirtyTwoBit h h0 h1 h2 h3 =>
    refine ⟨fun h1 => by omega, fun _ c hc => ?_⟩
    simp only [List.mem_cons, List.not_mem_nil, or_false] at hc
    rcases hc with rfl | rfl | rfl | rfl
    · exact h0
    · exact h1
    · exact h2
    · exact h3

/-- A string with its length is an item, and not a misread one. -/
theorem exists_item {bytes : Bytes} (h : LengthPrefixed bytes) :
    ∃ i : AuxItem, i.bytes = bytes ∧ ¬ i.Misread := by
  obtain ⟨byte, more, payload, rfl, hd⟩ := h
  have hlen := hd.lengthOf_eq
  refine ⟨⟨byte, more, payload, hd.form, by omega, by rw [hlen, Int.toNat_natCast]⟩, rfl, ?_⟩
  rintro (⟨hb, c, hc, hle⟩ | ⟨hb, c, hc, hle⟩)
  · exact absurd (hd.bytes_lt.1 hb c hc) (not_lt.mpr hle)
  · exact absurd (hd.bytes_lt.2 hb c hc) (not_lt.mpr hle)

/-- An item that is not misread is a string with its length. -/
theorem AuxItem.lengthPrefixed (i : AuxItem) (h : ¬ i.Misread) : LengthPrefixed i.bytes := by
  obtain ⟨byte, more, payload, hform, hne, hlen⟩ := i
  rw [Misread, not_or] at h
  obtain ⟨n, hd⟩ : ∃ n, Declares byte more n := by
    rcases hform with ⟨hb, hl⟩ | ⟨hb, hl⟩ | ⟨hb, hl⟩
    · obtain rfl := List.length_eq_zero_iff.mp hl
      exact ⟨_, .sixBit hb⟩
    · obtain ⟨extra, rfl⟩ := List.length_eq_one_iff.mp hl
      refine ⟨_, .fourteenBit hb (Nat.lt_of_not_le fun hle => h.1 ⟨hb, extra, ?_, hle⟩)⟩
      exact List.mem_singleton_self extra
    · obtain ⟨l0, l1, l2, l3, tail, rfl⟩ := eq_cons_of_four_le hl.ge
      obtain rfl := List.length_eq_zero_iff.mp (by simpa using hl)
      have hlt (c : UInt8) (hc : c ∈ [l0, l1, l2, l3]) : c.toNat < 128 :=
        Nat.lt_of_not_le fun hle => h.2 ⟨hb, c, hc, hle⟩
      exact ⟨_, .thirtyTwoBit hb (hlt l0 (by simp)) (hlt l1 (by simp)) (hlt l2 (by simp))
        (hlt l3 (by simp))⟩
  refine ⟨byte, more, payload, rfl, ?_⟩
  rw [hlen, hd.lengthOf_eq, Int.toNat_natCast]
  exact hd

/-- Strings with their lengths are items that are not misread. -/
theorem exists_items_of_strings {strings : List Bytes} (h : ∀ s ∈ strings, LengthPrefixed s) :
    ∃ items, itemBytes items = strings.flatten ∧ items.length = strings.length ∧
      ∀ i ∈ items, ¬ AuxItem.Misread i := by
  induction strings with
  | nil => exact ⟨[], rfl, rfl, by simp⟩
  | cons s strings ih =>
    obtain ⟨i, rfl, hi⟩ := exists_item (h s List.mem_cons_self)
    obtain ⟨items, hb, hl, hm⟩ := ih fun t ht => h t (List.mem_cons_of_mem _ ht)
    refine ⟨i :: items, ?_, by rw [List.length_cons, List.length_cons, hl], fun j hj => ?_⟩
    · rw [itemBytes_cons, hb, List.flatten_cons]
    · rcases List.mem_cons.mp hj with rfl | hj
      · exact hi
      · exact hm j hj

end Declares

/-- `parse_aux` ends on every file. It takes only complete pairs exactly when the file does not go on
with broken ones. -/
theorem completePairs_iff {st : RdbState} (hprev : st.prevState = 0xFA)
    (hnext : isNextStateAnOpcode st.nextState = false) (hc : st.isRdbFileCorrect = true) :
    Loop.Ends auxRound (.start st) (parseAux st) ∧
      (((parseAux st).isRdbFileCorrect = true → CompletePairs (st.nextState :: st.fp)) ↔
        ¬ BrokenPairs (st.nextState :: st.fp)) := by
  refine ⟨ends_parseAux hprev hnext, ?_⟩
  rw [accepted_iff hprev hnext hc]
  constructor
  · rintro h ⟨items, op, rest, hop, hb, hbroken⟩
    obtain ⟨strings, op', rest', hop', hb', heven, hstrings⟩ := h ⟨items, op, rest, hop, hb⟩
    obtain ⟨items', hflat, hlen, hread⟩ := exists_items_of_strings hstrings
    rw [← hflat] at hb'
    obtain rfl := items_unique hop hop' (hb.symm.trans hb')
    rcases hbroken with hodd | ⟨i, hi, hmis⟩
    · omega
    · exact hread i hi hmis
  · rintro h ⟨items, op, rest, hop, hb⟩
    refine ⟨items.map AuxItem.bytes, op, rest, hop, ?_, ?_, fun s hs => ?_⟩
    · rw [hb, itemBytes, List.flatMap_def]
    · rw [List.length_map]
      by_contra hodd
      exact h ⟨items, op, rest, hop, hb, .inl (by omega)⟩
    · obtain ⟨i, hi, rfl⟩ := List.mem_map.mp hs
      exact i.lengthPrefixed fun hmis => h ⟨items, op, rest, hop, hb, .inr ⟨i, hi, hmis⟩⟩

/-- A string of at most 63 bytes, with its length in one byte. -/
def AuxItem.ofString (s : Bytes) (h : s.length ≤ 63) : AuxItem where
  byte := UInt8.ofNat s.length
  more := []
  payload := s
  form := .inl ⟨by rw [UInt8.toNat_ofNat']; omega, rfl⟩
  decoded_ne := by
    rw [lengthOf_sixBit (by rw [UInt8.toNat_ofNat']; omega)]
    omega
  payload_length := by
    rw [lengthOf_sixBit (by rw [UInt8.toNat_ofNat']; omega), UInt8.toNat_ofNat']
    omega

/-- A string with its length in one byte. -/
def shortString (s : Bytes) : Bytes := UInt8.ofNat s.length :: s

theorem lengthPrefixed_shortString {s : Bytes} (h : s.length ≤ 63) :
    LengthPrefixed (shortString s) := by
  have hn : (UInt8.ofNat s.length).toNat = s.length := by
    rw [UInt8.toNat_ofNat']
    omega
  refine ⟨UInt8.ofNat s.length, [], s, rfl, ?_⟩
  have hd := @Declares.sixBit (UInt8.ofNat s.length) (by omega)
  rwa [hn] at hd

/-- The key `a` with the value `b`, and `SELECTDB`. -/
theorem completePairs_iff_field :
    (parseAux ⟨0xFA, 1, true, [97, 1, 98, 0xFE], []⟩).isRdbFileCorrect = true ∧
      ¬ BrokenPairs [1, 97, 1, 98, 0xFE] := by
  have hflag : (parseAux ⟨0xFA, 1, true, [97, 1, 98, 0xFE], []⟩).isRdbFileCorrect = true := by
    decide
  have hiff := (@completePairs_iff ⟨0xFA, 1, true, [97, 1, 98, 0xFE], []⟩ rfl rfl rfl).2
  refine ⟨hflag, hiff.mp fun _ => ?_⟩
  refine ⟨[shortString [97], shortString [98]], 0xFE, [], rfl, rfl, rfl, fun s hs => ?_⟩
  simp only [List.mem_cons, List.not_mem_nil, or_false] at hs
  rcases hs with rfl | rfl
  · exact lengthPrefixed_shortString (by decide)
  · exact lengthPrefixed_shortString (by decide)

/-- The key `a`, without a value. -/
theorem lonelyKey_not_completePairs :
    (parseAux ⟨0xFA, 1, true, [97, 0xFE], []⟩).isRdbFileCorrect = true ∧
      ¬ CompletePairs [1, 97, 0xFE] := by
  refine ⟨by decide, ?_⟩
  rintro ⟨strings, op, rest, hop, hb, heven, hstrings⟩
  have hkey : [1, 97, 0xFE] = itemBytes [.ofString [97] (by decide)] ++ 0xFE :: [] := rfl
  obtain ⟨items, hflat, hlen, -⟩ := exists_items_of_strings hstrings
  rw [← hflat] at hb
  obtain rfl := items_unique rfl hop (hkey.symm.trans hb)
  rw [List.length_singleton] at hlen
  omega

/-- The five bytes of the length 128 are taken for a string without content. -/
example : (parseAux ⟨0xFA, 0x80, true, [0x80, 0, 0, 0, 1, 97, 0xFE], []⟩).isRdbFileCorrect = true := by
  decide

/-! ## A well-formed section -/

/-- The strings of an auxiliary section. -/
def sectionBytes (pairs : List (Bytes × Bytes)) : Bytes :=
  pairs.flatMap fun p => shortString p.1 ++ shortString p.2

/-- The arguments of `auxiliary_field_settings` for a pair: the strings, terminated. -/
def settingOf (p : Bytes × Bytes) : Option Bytes × Option Bytes :=
  (some (p.1 ++ [0]), some (p.2 ++ [0]))

theorem AuxItem.buffer_ofString (s : Bytes) (h : s.length ≤ 63) :
    (ofString s h).buffer = some (s ++ [0]) := by
  rw [buffer, if_pos ?_]
  · rfl
  · rw [decoded, lengthOf_sixBit (by rw [ofString, UInt8.toNat_ofNat']; omega)]
    omega

/-- A section of short strings is a sequence of items, two for each pair. -/
theorem exists_items {pairs : List (Bytes × Bytes)}
    (h : ∀ p ∈ pairs, p.1.length ≤ 63 ∧ p.2.length ≤ 63) :
    ∃ items, itemBytes items = sectionBytes pairs ∧
      settingsOf (items.map AuxItem.buffer) = pairs.map settingOf := by
  induction pairs with
  | nil => exact ⟨[], rfl, rfl⟩
  | cons p pairs ih =>
    obtain ⟨items, hb, hcalls⟩ := ih fun q hq => h q (List.mem_cons_of_mem p hq)
    obtain ⟨hk, hv⟩ := h p List.mem_cons_self
    refine ⟨.ofString p.1 hk :: .ofString p.2 hv :: items, ?_, ?_⟩
    · rw [itemBytes_cons, itemBytes_cons, hb, ← List.append_assoc]
      rfl
    · rw [List.map_cons, List.map_cons, AuxItem.buffer_ofString, AuxItem.buffer_ofString, settingsOf,
        hcalls]
      rfl

/-- `parse_aux` takes a section of short strings, from its first byte on. -/
theorem parseAux_section {pairs : List (Bytes × Bytes)} {op : UInt8} {rest : Bytes} {st : RdbState}
    (hprev : st.prevState = 0xFA) (hnext : isNextStateAnOpcode st.nextState = false)
    (hc : st.isRdbFileCorrect = true) (hop : isNextStateAnOpcode op = true)
    (hshort : ∀ p ∈ pairs, p.1.length ≤ 63 ∧ p.2.length ≤ 63)
    (h : st.nextState :: st.fp = sectionBytes pairs ++ op :: rest) :
    parseAux st =
      { st with nextState := op, fp := rest, settings := st.settings ++ pairs.map settingOf } := by
  obtain ⟨items, hb, hcalls⟩ := exists_items hshort
  rw [parseAux_items hprev hnext hc hop (h.trans (by rw [hb])), RdbState.after, hcalls]

/-- `handle_aux_state` never comes to `parse_aux`: a `char` is at most 127, and `AUX` is 250. -/
theorem handleAuxState_eq (st : RdbState) : handleAuxState st = st.incorrect := by
  have h : (charToInt st.nextState).toInt ≠ RedisOpCode.aux.code := by
    have hle : (charToInt st.nextState).toInt < 2 ^ 7 := by
      rw [charToInt, BitVec.toInt_signExtend_of_le (by decide)]
      exact BitVec.toInt_lt
    rw [RedisOpCode.code]
    omega
  rw [handleAuxState, if_pos (.inr h)]

/-- The section is accepted: from the version state, with the opcode `AUX` just read, the handler
ends with the flag set, just behind the opcode `op`, and every pair was handed on. -/
def AcceptsSection (pairs : List (Bytes × Bytes)) (op : UInt8) (rest : Bytes) : Prop :=
  let st := handleAuxState ⟨0x0F, 0xFA, true, sectionBytes pairs ++ op :: rest, []⟩
  st.isRdbFileCorrect = true ∧ st.nextState = op ∧ st.fp = rest ∧
    st.settings = pairs.map settingOf

/-- No section is accepted. -/
theorem not_acceptsSection (pairs : List (Bytes × Bytes)) (op : UInt8) (rest : Bytes) :
    ¬ AcceptsSection pairs op rest := by
  rintro ⟨h, -⟩
  rw [handleAuxState_eq] at h
  cases h

/-- The field `a = b` and `SELECTDB`, at the end of a file. -/
theorem oneField_not_accepted : ¬ AcceptsSection [([97], [98])] 0xFE [] := by
  rintro ⟨h, -⟩
  have hflag : (handleAuxState ⟨0x0F, 0xFA, true, [1, 97, 1, 98, 0xFE], []⟩).isRdbFileCorrect =
      false := by
    decide
  cases h.symm.trans hflag

end RedisImpl
