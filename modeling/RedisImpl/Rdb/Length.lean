import RedisImpl.Lib.Bytes
import Mathlib.Tactic.IntervalCases

/-!
# Lengths in an RDB file

`parse_length_encoding` reads the length of a string, whose first byte says in its two high bits
which form it has. A file is the bytes that are left to read.

* The two-byte form is meant to hold 14 bits. The code takes the second byte as the high byte of the
  length, over the 6 bits of the first one, so that bits 6 and 7 of a length are always zero.
* The five-byte form is assembled from four plain `char`s. They are signed, and a byte from `0x80` on
  brings its sign into all the bits above it.
-/

namespace RedisImpl

/-- `fread(buf, 1, n, fp)`: the bytes that were read, and the rest of the file. -/
def fread (n : Nat) (fp : Bytes) : Bytes × Bytes := (fp.take n, fp.drop n)

/-- `LENGTH_MASK`. -/
def lengthMask : UInt8 := 0x3F

/-- `RdbLenEncodingTypes`. -/
inductive RdbLenEncodingType where
  | redisRdb6BitLen
  | redisRdb14BitLen
  | redisRdb32BitLen
  | redisSpecialFormat
  deriving DecidableEq

/-- `RdbLengthEncoding`. -/
structure RdbLengthEncoding where
  encodingType : RdbLenEncodingType
  lengthOrFormat : Int
  deriving DecidableEq

/-- A `char` where the code computes with it: it is signed, and becomes an `int`. -/
def charToInt (c : UInt8) : BitVec 32 := c.toBitVec.signExtend 32

/-- `length[3]<<24 | length[2]<<16 | length[1]<<8 | length[0]`, for an array of `char`. -/
def assemble (l0 l1 l2 l3 : UInt8) : BitVec 32 :=
  charToInt l3 <<< 24 ||| charToInt l2 <<< 16 ||| charToInt l1 <<< 8 ||| charToInt l0

/-- `parse_length_encoding`: what it stores in `rdb`, and the rest of the file. -/
def parseLengthEncoding (byte : UInt8) (fp : Bytes) : RdbLengthEncoding × Bytes :=
  match byte.toNat >>> 6 with
  | 0 => (⟨.redisRdb6BitLen, (byte &&& lengthMask).toNat⟩, fp)
  | 1 =>
    match fread 1 fp with
    | ([extraByte], fp) =>
      (⟨.redisRdb14BitLen, (extraByte.toNat <<< 8 ||| (byte &&& lengthMask).toNat : Nat)⟩, fp)
    | (_, fp) => (⟨.redisRdb14BitLen, -1⟩, fp)
  | 2 =>
    match fread 4 fp with
    | ([l0, l1, l2, l3], fp) => (⟨.redisRdb32BitLen, (assemble l0 l1 l2 l3).toInt⟩, fp)
    | (_, fp) => (⟨.redisRdb32BitLen, -1⟩, fp)
  | _ => (⟨.redisSpecialFormat, (byte &&& lengthMask).toNat⟩, fp)

/-- The length or format that is read after `byte`. -/
def lengthOf (byte : UInt8) (fp : Bytes) : Int := (parseLengthEncoding byte fp).1.lengthOrFormat

/-! ## The forms of a length -/

theorem and_lengthMask (byte : UInt8) : byte.toNat &&& lengthMask.toNat = byte.toNat % 64 :=
  Nat.and_two_pow_sub_one_eq_mod byte.toNat 6

theorem shiftRight_six (byte : UInt8) : byte.toNat >>> 6 = byte.toNat / 64 :=
  Nat.shiftRight_eq_div_pow byte.toNat 6

section Forms

variable {byte : UInt8} (fp : Bytes)

theorem parse_sixBit (h : byte.toNat / 64 = 0) :
    parseLengthEncoding byte fp = (⟨.redisRdb6BitLen, byte.toNat % 64⟩, fp) := by
  simp [parseLengthEncoding, shiftRight_six, h, and_lengthMask]

theorem parse_fourteenBit (extra : UInt8) (h : byte.toNat / 64 = 1) :
    parseLengthEncoding byte (extra :: fp) =
      (⟨.redisRdb14BitLen, extra.toNat * 256 + byte.toNat % 64⟩, fp) := by
  have hor : extra.toNat <<< 8 ||| byte.toNat % 64 = extra.toNat * 256 + byte.toNat % 64 := by
    rw [Nat.shiftLeft_eq, Nat.mul_comm, ← Nat.two_pow_add_eq_or_of_lt (by omega)]
  simp [parseLengthEncoding, fread, shiftRight_six, h, and_lengthMask, hor]

theorem parse_fourteenBit_cut (h : byte.toNat / 64 = 1) :
    parseLengthEncoding byte [] = (⟨.redisRdb14BitLen, -1⟩, []) := by
  simp [parseLengthEncoding, fread, shiftRight_six, h]

theorem parse_thirtyTwoBit (l0 l1 l2 l3 : UInt8) (h : byte.toNat / 64 = 2) :
    parseLengthEncoding byte (l0 :: l1 :: l2 :: l3 :: fp) =
      (⟨.redisRdb32BitLen, (assemble l0 l1 l2 l3).toInt⟩, fp) := by
  simp [parseLengthEncoding, fread, shiftRight_six, h]

theorem parse_thirtyTwoBit_cut (h : byte.toNat / 64 = 2) (hcut : fp.length < 4) :
    parseLengthEncoding byte fp = (⟨.redisRdb32BitLen, -1⟩, []) := by
  match fp, hcut with
  | [], _ => simp [parseLengthEncoding, fread, shiftRight_six, h]
  | [_], _ => simp [parseLengthEncoding, fread, shiftRight_six, h]
  | [_, _], _ => simp [parseLengthEncoding, fread, shiftRight_six, h]
  | [_, _, _], _ => simp [parseLengthEncoding, fread, shiftRight_six, h]

theorem parse_special (h : byte.toNat / 64 = 3) :
    parseLengthEncoding byte fp = (⟨.redisSpecialFormat, byte.toNat % 64⟩, fp) := by
  simp [parseLengthEncoding, shiftRight_six, h, and_lengthMask]

end Forms

/-- A file with four bytes to read. -/
theorem eq_cons_of_four_le {fp : Bytes} (h : 4 ≤ fp.length) :
    ∃ l0 l1 l2 l3 rest, fp = l0 :: l1 :: l2 :: l3 :: rest := by
  match fp, h with
  | l0 :: l1 :: l2 :: l3 :: rest, _ => exact ⟨l0, l1, l2, l3, rest, rfl⟩

/-! ## The value of the five-byte form -/

theorem msb_toBitVec (c : UInt8) : c.toBitVec.msb = decide (128 ≤ c.toNat) := by
  rw [BitVec.msb_eq_decide]
  rfl

theorem toNat_charToInt {c : UInt8} (h : c.toNat < 128) : (charToInt c).toNat = c.toNat := by
  have hm : c.toBitVec.msb = false := by
    rw [msb_toBitVec]
    simpa using h
  rw [charToInt, BitVec.signExtend_eq_setWidth_of_msb_false hm, BitVec.toNat_setWidth]
  exact Nat.mod_eq_of_lt (by have := c.toNat_lt; omega)

/-- The sign of the assembled number is that of any of its bytes. -/
theorem msb_assemble (l0 l1 l2 l3 : UInt8) :
    (assemble l0 l1 l2 l3).msb =
      (decide (128 ≤ l3.toNat) || decide (128 ≤ l2.toNat) || decide (128 ≤ l1.toNat)
        || decide (128 ≤ l0.toNat)) := by
  have h0 (x : BitVec 8) : x.getMsbD 0 = x.msb := rfl
  simp [← msb_toBitVec, assemble, charToInt, BitVec.msb_shiftLeft, BitVec.getMsbD_signExtend,
    BitVec.msb_signExtend, h0]

/-- The little-endian number in four bytes. -/
def littleEndian (l0 l1 l2 l3 : UInt8) : Nat :=
  l0.toNat + 256 * (l1.toNat + 256 * (l2.toNat + 256 * l3.toNat))

theorem toNat_assemble {l0 l1 l2 l3 : UInt8} (h0 : l0.toNat < 128) (h1 : l1.toNat < 128)
    (h2 : l2.toNat < 128) (h3 : l3.toNat < 128) :
    (assemble l0 l1 l2 l3).toNat = littleEndian l0 l1 l2 l3 := by
  simp only [assemble, BitVec.toNat_or, BitVec.toNat_shiftLeft, toNat_charToInt, h0, h1, h2, h3,
    Nat.shiftLeft_eq]
  rw [Nat.mod_eq_of_lt (by omega), Nat.mod_eq_of_lt (by omega), Nat.mod_eq_of_lt (by omega)]
  have e2 : l3.toNat * 2 ^ 24 ||| l2.toNat * 2 ^ 16 = 2 ^ 24 * l3.toNat + l2.toNat * 2 ^ 16 := by
    rw [Nat.mul_comm, ← Nat.two_pow_add_eq_or_of_lt (by omega)]
  have e1 : 2 ^ 24 * l3.toNat + l2.toNat * 2 ^ 16 ||| l1.toNat * 2 ^ 8 =
      2 ^ 24 * l3.toNat + l2.toNat * 2 ^ 16 + l1.toNat * 2 ^ 8 := by
    rw [show 2 ^ 24 * l3.toNat + l2.toNat * 2 ^ 16 = 2 ^ 16 * (256 * l3.toNat + l2.toNat) by omega,
      ← Nat.two_pow_add_eq_or_of_lt (by omega)]
  have e0 : 2 ^ 24 * l3.toNat + l2.toNat * 2 ^ 16 + l1.toNat * 2 ^ 8 ||| l0.toNat =
      2 ^ 24 * l3.toNat + l2.toNat * 2 ^ 16 + l1.toNat * 2 ^ 8 + l0.toNat := by
    rw [show 2 ^ 24 * l3.toNat + l2.toNat * 2 ^ 16 + l1.toNat * 2 ^ 8 =
        2 ^ 8 * (65536 * l3.toNat + 256 * l2.toNat + l1.toNat) by omega,
      ← Nat.two_pow_add_eq_or_of_lt (by omega)]
  rw [e2, e1, e0, littleEndian]
  omega

/-- Four bytes below `0x80` are read as the number that they hold. -/
theorem toInt_assemble {l0 l1 l2 l3 : UInt8} (h0 : l0.toNat < 128) (h1 : l1.toNat < 128)
    (h2 : l2.toNat < 128) (h3 : l3.toNat < 128) :
    (assemble l0 l1 l2 l3).toInt = littleEndian l0 l1 l2 l3 := by
  have hm : (assemble l0 l1 l2 l3).msb = false := by
    rw [msb_assemble]
    simp [h0, h1, h2, h3]
  rw [BitVec.toInt_eq_toNat_of_msb hm, toNat_assemble h0 h1 h2 h3]

/-- A byte from `0x80` on makes the number negative. -/
theorem toInt_assemble_neg {l0 l1 l2 l3 : UInt8}
    (h : 128 ≤ l0.toNat ∨ 128 ≤ l1.toNat ∨ 128 ≤ l2.toNat ∨ 128 ≤ l3.toNat) :
    (assemble l0 l1 l2 l3).toInt < 0 := by
  apply BitVec.toInt_neg_of_msb_true
  rw [msb_assemble]
  rcases h with h | h | h | h <;> simp [h]

/-- The number is `-1`, whatever the other bytes are, when the lowest one is `0xFF`. -/
theorem toInt_assemble_eq_neg_one (l0 l1 l2 l3 : UInt8) :
    (assemble l0 l1 l2 l3).toInt = -1 ↔ l0 = 0xFF := by
  have hone : (assemble l0 l1 l2 l3).toInt = -1 ↔ assemble l0 l1 l2 l3 = BitVec.allOnes 32 := by
    rw [← BitVec.toInt_inj]
    exact Iff.rfl
  rw [hone]
  constructor
  · intro h
    have hlow : (assemble l0 l1 l2 l3).setWidth 8 = l0.toBitVec := by
      ext i hi
      simp [assemble, charToInt, BitVec.getLsbD_signExtend, hi]
      omega
    rw [h] at hlow
    exact (UInt8.toBitVec_inj.mp hlow).symm
  · rintro rfl
    rw [assemble, show charToInt 0xFF = BitVec.allOnes 32 from rfl, BitVec.or_allOnes]

/-! ## What each form should give -/

/-- The file ends inside the length that `byte` begins. -/
def CutLength (byte : UInt8) (fp : Bytes) : Prop :=
  byte.toNat / 64 = 1 ∧ fp = [] ∨ byte.toNat / 64 = 2 ∧ fp.length < 4

/-- The length that begins with `byte` is decoded as its form says. -/
structure DecodesFully (byte : UInt8) (fp : Bytes) : Prop where
  sixBit : byte.toNat / 64 = 0 → lengthOf byte fp = byte.toNat
  fourteenBit : byte.toNat / 64 = 1 → ∀ extra rest, fp = extra :: rest →
    0 ≤ lengthOf byte fp ∧ lengthOf byte fp < 2 ^ 14
  fourteenBit_inj : byte.toNat / 64 = 1 → ∀ extra rest, fp = extra :: rest →
    ∀ byte' extra' rest', byte'.toNat / 64 = 1 →
      lengthOf byte' (extra' :: rest') = lengthOf byte fp → byte' = byte ∧ extra' = extra
  thirtyTwoBit : byte.toNat / 64 = 2 → ∀ l0 l1 l2 l3 rest, fp = l0 :: l1 :: l2 :: l3 :: rest →
    littleEndian l0 l1 l2 l3 < 2 ^ 31 → lengthOf byte fp = littleEndian l0 l1 l2 l3
  negOne : lengthOf byte fp = -1 ↔ CutLength byte fp

/-- The bytes after the first one are such that the code reads the length that they hold: in the
two-byte form the second byte is below 64; in the five-byte form all four are below `0x80`, or the
number is `2 ^ 31` or more and its lowest byte is not `0xFF`. -/
structure Decodable (byte : UInt8) (fp : Bytes) : Prop where
  fourteenBit : byte.toNat / 64 = 1 → ∀ extra rest, fp = extra :: rest → extra.toNat < 64
  thirtyTwoBit : byte.toNat / 64 = 2 → ∀ l0 l1 l2 l3 rest, fp = l0 :: l1 :: l2 :: l3 :: rest →
    if l3.toNat < 128 then l0.toNat < 128 ∧ l1.toNat < 128 ∧ l2.toNat < 128 else l0 ≠ 0xFF

section Lengths

variable {byte : UInt8} {fp : Bytes}

theorem lengthOf_sixBit (h : byte.toNat / 64 = 0) : lengthOf byte fp = byte.toNat := by
  rw [lengthOf, parse_sixBit fp h]
  simp only
  omega

theorem lengthOf_fourteenBit (extra : UInt8) (h : byte.toNat / 64 = 1) :
    lengthOf byte (extra :: fp) = extra.toNat * 256 + byte.toNat % 64 := by
  rw [lengthOf, parse_fourteenBit fp extra h]

theorem lengthOf_thirtyTwoBit (l0 l1 l2 l3 : UInt8) (h : byte.toNat / 64 = 2) :
    lengthOf byte (l0 :: l1 :: l2 :: l3 :: fp) = (assemble l0 l1 l2 l3).toInt := by
  rw [lengthOf, parse_thirtyTwoBit fp l0 l1 l2 l3 h]

theorem lengthOf_special (h : byte.toNat / 64 = 3) : lengthOf byte fp = byte.toNat % 64 := by
  rw [lengthOf, parse_special fp h]

theorem lengthOf_cut (h : CutLength byte fp) : lengthOf byte fp = -1 := by
  rcases h with ⟨h, rfl⟩ | ⟨h, hlen⟩
  · rw [lengthOf, parse_fourteenBit_cut h]
  · rw [lengthOf, parse_thirtyTwoBit_cut fp h hlen]

/-- Outside a cut file, `-1` is read only in the five-byte form, when its first byte is `0xFF`. -/
theorem lengthOf_eq_neg_one (h : lengthOf byte fp = -1) (hcut : ¬ CutLength byte fp) :
    byte.toNat / 64 = 2 ∧ ∃ l1 l2 l3 rest, fp = 0xFF :: l1 :: l2 :: l3 :: rest := by
  have hb := byte.toNat_lt
  obtain h0 | h1 | h2 | h3 : byte.toNat / 64 = 0 ∨ byte.toNat / 64 = 1 ∨ byte.toNat / 64 = 2 ∨
      byte.toNat / 64 = 3 := by omega
  · rw [lengthOf_sixBit h0] at h
    omega
  · cases fp with
    | nil => exact absurd (.inl ⟨h1, rfl⟩) hcut
    | cons extra rest =>
      rw [lengthOf_fourteenBit extra h1] at h
      omega
  · have hlen : 4 ≤ fp.length := by
      by_contra hlt
      exact hcut (.inr ⟨h2, by omega⟩)
    obtain ⟨l0, l1, l2, l3, rest, rfl⟩ := eq_cons_of_four_le hlen
    rw [lengthOf_thirtyTwoBit l0 l1 l2 l3 h2, toInt_assemble_eq_neg_one] at h
    exact ⟨h2, l1, l2, l3, rest, by rw [h]⟩
  · rw [lengthOf_special h3] at h
    omega

/-- A five-byte form that gives its number has no byte from `0x80` on. -/
theorem toInt_assemble_eq_iff {l0 l1 l2 l3 : UInt8} :
    (assemble l0 l1 l2 l3).toInt = littleEndian l0 l1 l2 l3 ↔
      l0.toNat < 128 ∧ l1.toNat < 128 ∧ l2.toNat < 128 ∧ l3.toNat < 128 := by
  constructor
  · intro h
    by_contra hge
    have := @toInt_assemble_neg l0 l1 l2 l3 (by omega)
    omega
  · rintro ⟨h0, h1, h2, h3⟩
    exact toInt_assemble h0 h1 h2 h3

theorem littleEndian_lt_iff {l0 l1 l2 l3 : UInt8} :
    littleEndian l0 l1 l2 l3 < 2 ^ 31 ↔ l3.toNat < 128 := by
  have h0 := l0.toNat_lt
  have h1 := l1.toNat_lt
  have h2 := l2.toNat_lt
  simp only [littleEndian]
  omega

theorem DecodesFully.decodable (h : DecodesFully byte fp) : Decodable byte fp := by
  constructor
  · rintro h1 extra rest rfl
    have hlt := (h.fourteenBit h1 extra rest rfl).2
    rw [lengthOf_fourteenBit extra h1] at hlt
    omega
  · rintro h2 l0 l1 l2 l3 rest rfl
    split
    · rename_i h3
      have he := h.thirtyTwoBit h2 l0 l1 l2 l3 rest rfl (littleEndian_lt_iff.mpr h3)
      rw [lengthOf_thirtyTwoBit l0 l1 l2 l3 h2, toInt_assemble_eq_iff] at he
      exact ⟨he.1, he.2.1, he.2.2.1⟩
    · intro h0
      have hn := h.negOne.mp (by
        rw [lengthOf_thirtyTwoBit l0 l1 l2 l3 h2, toInt_assemble_eq_neg_one]
        exact h0)
      rcases hn with ⟨h1, -⟩ | ⟨-, hlen⟩
      · omega
      · simp at hlen
        omega

theorem Decodable.decodesFully (h : Decodable byte fp) : DecodesFully byte fp where
  sixBit h0 := lengthOf_sixBit h0
  fourteenBit h1 extra rest := by
    rintro rfl
    have hlt := h.fourteenBit h1 extra rest rfl
    rw [lengthOf_fourteenBit extra h1]
    omega
  fourteenBit_inj h1 extra rest := by
    rintro rfl byte' extra' rest' h1' he
    rw [lengthOf_fourteenBit extra h1, lengthOf_fourteenBit extra' h1'] at he
    exact ⟨UInt8.toNat_inj.mp (by omega), UInt8.toNat_inj.mp (by omega)⟩
  thirtyTwoBit h2 l0 l1 l2 l3 rest := by
    rintro rfl hlt
    have h3 := littleEndian_lt_iff.mp hlt
    have hs := h.thirtyTwoBit h2 l0 l1 l2 l3 rest rfl
    rw [if_pos h3] at hs
    rw [lengthOf_thirtyTwoBit l0 l1 l2 l3 h2, toInt_assemble hs.1 hs.2.1 hs.2.2 h3]
  negOne := by
    refine ⟨fun hn => ?_, lengthOf_cut⟩
    by_contra hcut
    obtain ⟨h2, l1, l2, l3, rest, rfl⟩ := lengthOf_eq_neg_one hn hcut
    have hs := h.thirtyTwoBit h2 0xFF l1 l2 l3 rest rfl
    split at hs
    · exact absurd hs.1 (by decide)
    · exact hs rfl

end Lengths

/-- A length is decoded as its form says exactly when it is `Decodable`, and the two-byte form gives
exactly the 14-bit lengths whose bits 6 and 7 are zero. -/
theorem decodesFully_iff (byte : UInt8) (fp : Bytes) :
    (DecodesFully byte fp ↔ Decodable byte fp) ∧
    ∀ n : Nat, n < 2 ^ 14 →
      ((∃ byte extra, byte.toNat / 64 = 1 ∧ ∀ rest, lengthOf byte (extra :: rest) = n) ↔
        n % 256 < 64) := by
  refine ⟨⟨DecodesFully.decodable, Decodable.decodesFully⟩, fun n hn => ⟨?_, ?_⟩⟩
  · rintro ⟨byte, extra, h1, h⟩
    have := h []
    rw [lengthOf_fourteenBit extra h1] at this
    omega
  · intro hlow
    have hbyte : (UInt8.ofNat (64 + n % 256)).toNat = 64 + n % 256 := by
      rw [UInt8.toNat_ofNat']
      omega
    have hextra : (UInt8.ofNat (n / 256)).toNat = n / 256 := by
      rw [UInt8.toNat_ofNat']
      omega
    refine ⟨UInt8.ofNat (64 + n % 256), UInt8.ofNat (n / 256), by omega, fun rest => ?_⟩
    rw [lengthOf_fourteenBit _ (by omega), hbyte, hextra]
    omega

/-- The five-byte form of 128 is read as -128, and the two-byte form of `0x40 0x40` as 16384. -/
theorem length128_not_decodesFully :
    ¬ DecodesFully 0x80 [0x80, 0, 0, 0] ∧ ¬ DecodesFully 0x40 [0x40] := by
  constructor
  · intro h
    exact absurd (h.thirtyTwoBit rfl 0x80 0 0 0 [] rfl (by decide)) (by decide)
  · intro h
    exact absurd (h.fourteenBit rfl 0x40 [] rfl).2 (by decide)

end RedisImpl
